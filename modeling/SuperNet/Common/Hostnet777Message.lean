import Mathlib.Data.UInt
import SuperNet.Common.Hostnet777
import SuperNet.Lib.Bytes
import SuperNet.Lib.Words

/-! The messages of the host network: what `hostnet777_encode` lays down and `hostnet777_decode` reads. -/
namespace SuperNet.Common.Hostnet777
open SuperNet.Lib.Memory SuperNet.Lib.Runs SuperNet.Lib.Bytes SuperNet.Lib.Words

abbrev ByteString (n : Nat) := { bs : List UInt8 // bs.length = n }

/-- What the messages take from the cipher library. An `open` that fails leaves its buffer alone. -/
structure Nacl where
  calcSha256 : List UInt8 → ByteString 32
  keypair : ByteString 32 → ByteString 32
  cryptoBox : List UInt8 → ByteString 24 → ByteString 32 → ByteString 32 → List UInt8
  cryptoBoxOpen : List UInt8 → ByteString 24 → ByteString 32 → ByteString 32 → Option (List UInt8)

structure Nacl.Inverts (nacl : Nacl) : Prop where
  box_length : ∀ m nonce pubkey privkey, (nacl.cryptoBox m nonce pubkey privkey).length = m.length
  open_box : ∀ m nonce a b, m.take 32 = List.replicate 32 0 →
    nacl.cryptoBoxOpen (nacl.cryptoBox m nonce (nacl.keypair b) a) nonce (nacl.keypair a) b = some m

def genesisPubkey : List UInt8 :=
  [0x12, 0x59, 0xec, 0x21, 0xd3, 0x1a, 0x30, 0x89, 0x8d, 0x7c, 0xd1, 0x60, 0x9f, 0x80, 0xd9, 0x66,
   0x8b, 0x47, 0x78, 0xe3, 0xd9, 0x7e, 0x94, 0x10, 0x44, 0xb3, 0x9f, 0x0c, 0x44, 0xd2, 0xe5, 0x1b]

def Nacl.acct777Nxt64bits (nacl : Nacl) (pubkey : ByteString 32) : UInt64 :=
  UInt64.ofNat (leValue ((nacl.calcSha256 pubkey.val).val.take 8))

/-- The `destbits` that `hostnet777_encode` gives a destination. -/
def Nacl.destbits (nacl : Nacl) (destpubkey : ByteString 32) : UInt64 :=
  if destpubkey.val ≠ genesisPubkey then nacl.acct777Nxt64bits destpubkey else 0

structure Header where
  senderpub : ByteString 32
  senderbits : UInt64
  sig : ByteString 32
  timestamp : UInt32
  destbits : UInt64

/-- A buffer and the pointer that moves through it. -/
structure Out where
  bytes : Nat → UInt8
  pos : Nat

def Out.copybits (out : Out) (src : List UInt8) : Out :=
  ⟨atPtr out.bytes out.pos fun dest => hostnet777Copybits dest (fun d => src.getD d 0) src.length, out.pos + src.length⟩

def Out.write (out : Out) (src : List UInt8) : Out := ⟨blit out.bytes out.pos src, out.pos + src.length⟩

def zeroSig : ByteString 32 := ⟨List.replicate 32 0, List.length_replicate⟩

/-- `hostnet777_serialize` with `reverse` 0. -/
def hostnet777Serialize (h : Header) (out : Out) : Out :=
  let out := out.copybits (leBytes 8 h.destbits.toNat)
  let out := out.copybits h.senderpub.val
  let out := out.copybits (leBytes 8 h.senderbits.toNat)
  let out := out.copybits (leBytes 4 h.timestamp.toNat)
  if h.senderbits ≠ 0 then out.copybits h.sig.val else out

/-- A field of `n` bytes that `hostnet777_copybits` reads at `buf`. -/
def field (cipher : Nat → UInt8) (buf n : Nat) : ByteString n :=
  ⟨slice (hostnet777Copybits (fun _ => 0) (fun d => cipher (buf + d)) n) 0 n, slice_length _ _ _⟩

/-- `hostnet777_serialize` with `reverse` 1, and the length it returns. -/
def hostnet777Deserialize (cipher : Nat → UInt8) : Header × Nat :=
  let destbits := UInt64.ofNat (leValue (field cipher 0 8).val)
  let senderpub := field cipher 8 32
  let senderbits := UInt64.ofNat (leValue (field cipher 40 8).val)
  let timestamp := UInt32.ofNat (leValue (field cipher 48 4).val)
  if senderbits ≠ 0 then (⟨senderpub, senderbits, field cipher 52 32, timestamp, destbits⟩, 84)
  else (⟨senderpub, senderbits, zeroSig, timestamp, destbits⟩, 52)

/-- A message as `hostnet777_encode` returns it, with the bytes written to it and the length reported. -/
structure Encoded where
  bytes : Nat → UInt8
  written : Nat
  cipherlen : Int

/-- `hostnet777_encode`; `none` is a null pointer: `calloc` gets the size of its buffers as a `size_t`,
so a negative one is never met. -/
def hostnet777Encode (nacl : Nacl) (str : List UInt8) (destpubkey myprivkey mypubkey : ByteString 32)
    (senderbits : UInt64) (sig : ByteString 32) (timestamp : UInt32) (nonce : ByteString 24) : Option Encoded :=
  let destbits := nacl.destbits destpubkey
  let totalsize := signed 32 (str.length + 32 + 8 + 8 + 4)
  if totalsize + (24 + 32 + 32) < 0 then none
  else
    let out := hostnet777Serialize ⟨mypubkey, senderbits, sig, timestamp, destbits⟩ ⟨fun _ => 0, 0⟩
    let totalsize := if senderbits ≠ 0 then signed 32 (totalsize + 32) else totalsize
    if destbits ≠ 0 ∧ senderbits ≠ 0 then
      let totalsize := signed 32 (totalsize + (24 + 32))
      let out := out.write nonce.val
      let out := { out with bytes := blit out.bytes out.pos (List.replicate (str.length + 32) 0) }
      let out := out.write (nacl.cryptoBox (List.replicate 32 0 ++ str) nonce destpubkey myprivkey)
      some ⟨out.bytes, out.pos, totalsize⟩
    else
      let out := out.write str
      some ⟨out.bytes, out.pos, totalsize⟩

structure Decoded where
  header : Header
  str : Nat → UInt8
  len : Int
  err : Int

/-- `hostnet777_decode` of a message of `len` bytes into the buffer `str`; `none` is a negative length
given to a copy or to the cipher. -/
def hostnet777Decode (nacl : Nacl) (str cipher : Nat → UInt8) (len : Int) (myprivkey : ByteString 32) : Option Decoded :=
  let (h, hdrlen) := hostnet777Deserialize cipher
  let rest := len - hdrlen
  if h.destbits ≠ 0 ∧ h.senderbits ≠ 0 then
    let nonce : ByteString 24 := ⟨slice cipher hdrlen 24, slice_length _ _ _⟩
    let rest := rest - 24
    if rest < 0 then none
    else
      let (str, err) := match nacl.cryptoBoxOpen (slice cipher (hdrlen + 24) rest.toNat) nonce h.senderpub myprivkey with
        | some m => (blit str 0 m, 0)
        | none => (str, -1)
      some ⟨h, rounds (fun str i => Function.update str i (str (i + 32))) str (rest - 32).toNat, rest - 32, err⟩
  else if rest < 0 then none
  else some ⟨h, blit str 0 (slice cipher hdrlen rest.toNat), len, 0⟩

/-- Decoding what was encoded gives the message and its header back, with the length of the message, and
the length that was reported is the length that was written. -/
def RoundTrip (nacl : Nacl) (room : Nat → UInt8) (str : List UInt8) (destpubkey destprivkey myprivkey mypubkey : ByteString 32)
    (senderbits : UInt64) (sig : ByteString 32) (timestamp : UInt32) (nonce : ByteString 24) : Prop :=
  ∃ e, hostnet777Encode nacl str destpubkey myprivkey mypubkey senderbits sig timestamp nonce = some e ∧
    e.cipherlen = e.written ∧
    ∃ d, hostnet777Decode nacl room e.bytes e.cipherlen destprivkey = some d ∧ d.err = 0 ∧
      d.header.senderbits = senderbits ∧ d.header.timestamp = timestamp ∧
      d.header.destbits = nacl.destbits destpubkey ∧ (senderbits ≠ 0 → d.header.sig = sig) ∧
      slice d.str 0 str.length = str ∧ d.len = str.length

/-- A message that is encrypted: its destination is not everyone and its sender is named. -/
def Encrypted (nacl : Nacl) (destpubkey : ByteString 32) (senderbits : UInt64) : Prop :=
  nacl.destbits destpubkey ≠ 0 ∧ senderbits ≠ 0

variable {nacl : Nacl}

theorem Out.copybits_eq (out : Out) (src : List UInt8) : out.copybits src = out.write src := by
  rw [Out.copybits, blit_of_copybits]
  rfl

theorem Out.write_write (out : Out) (src src' : List UInt8) : (out.write src).write src' = out.write (src ++ src') := by
  rw [Out.write, Out.write, Out.write, blit_append, List.length_append, Nat.add_assoc]

theorem field_val (cipher : Nat → UInt8) (buf n : Nat) : (field cipher buf n).val = slice cipher buf n := by
  apply List.ext_getElem (by rw [(field cipher buf n).property, slice_length])
  intro k hk _
  rw [(field cipher buf n).property] at hk
  simp [field, slice, hostnet777Copybits_eq, hk]

private theorem field_part {mem : Nat → UInt8} {mid bs : List UInt8} {buf n : Nat} (first last : List UInt8)
    (hbs : bs = first ++ (mid ++ last)) (hbuf : 0 + first.length = buf) (hn : mid.length = n) :
    (field (blit mem 0 bs) buf n).val = mid := by
  rw [field_val, hbs, slice_blit_part hbuf hn]

/-- The bytes of a header, in the order in which they are sent. -/
def Header.bytes (h : Header) : List UInt8 :=
  leBytes 8 h.destbits.toNat ++ (h.senderpub.val ++ (leBytes 8 h.senderbits.toNat ++ (leBytes 4 h.timestamp.toNat ++
    if h.senderbits ≠ 0 then h.sig.val else [])))

theorem hostnet777Serialize_eq (h : Header) (out : Out) : hostnet777Serialize h out = out.write h.bytes := by
  rw [hostnet777Serialize, Header.bytes]
  simp only [Out.copybits_eq, Out.write_write]
  split
  · rw [List.append_assoc, List.append_assoc, List.append_assoc]
  · rw [List.append_nil, List.append_assoc, List.append_assoc]

theorem Header.bytes_length (h : Header) : h.bytes.length = if h.senderbits ≠ 0 then 84 else 52 := by
  rw [Header.bytes]
  simp only [List.length_append, leBytes_length, h.senderpub.property]
  split
  · rw [h.sig.property]
  · rfl

/-- The header as the receiver has it: an unsigned message has no signature. -/
def Header.received (h : Header) : Header := if h.senderbits ≠ 0 then h else { h with sig := zeroSig }

private theorem u64_read (x : UInt64) : UInt64.ofNat (leValue (leBytes 8 x.toNat)) = x := by
  rw [leValue_leBytes_of_lt (UInt64.toNat_lt x), UInt64.ofNat_toNat]

private theorem u32_read (x : UInt32) : UInt32.ofNat (leValue (leBytes 4 x.toNat)) = x := by
  rw [leValue_leBytes_of_lt (UInt32.toNat_lt x), UInt32.ofNat_toNat]

/-- A header is read back from the front of a message, whatever follows it. -/
theorem hostnet777Deserialize_bytes (h : Header) (mem : Nat → UInt8) (rest : List UInt8) :
    hostnet777Deserialize (blit mem 0 (h.bytes ++ rest)) = (h.received, h.bytes.length) := by
  set tail := (if h.senderbits ≠ 0 then h.sig.val else []) ++ rest with htail
  have hbytes : h.bytes ++ rest = leBytes 8 h.destbits.toNat ++ (h.senderpub.val ++
      (leBytes 8 h.senderbits.toNat ++ (leBytes 4 h.timestamp.toNat ++ tail))) := by
    simp only [Header.bytes, htail, List.append_assoc]
  rw [hbytes]
  set bs := leBytes 8 h.destbits.toNat ++ (h.senderpub.val ++
      (leBytes 8 h.senderbits.toNat ++ (leBytes 4 h.timestamp.toNat ++ tail))) with hbs
  have hdest : (field (blit mem 0 bs) 0 8).val = leBytes 8 h.destbits.toNat :=
    field_part [] _ hbs rfl (leBytes_length _ _)
  have hpub : field (blit mem 0 bs) 8 32 = h.senderpub :=
    Subtype.ext (field_part (leBytes 8 h.destbits.toNat) _ hbs rfl h.senderpub.property)
  have hsender : (field (blit mem 0 bs) 40 8).val = leBytes 8 h.senderbits.toNat := by
    apply field_part (leBytes 8 h.destbits.toNat ++ h.senderpub.val) (leBytes 4 h.timestamp.toNat ++ tail)
    · rw [hbs, List.append_assoc]
    · rw [List.length_append, leBytes_length, h.senderpub.property]
    · exact leBytes_length _ _
  have htime : (field (blit mem 0 bs) 48 4).val = leBytes 4 h.timestamp.toNat := by
    apply field_part (leBytes 8 h.destbits.toNat ++ h.senderpub.val ++ leBytes 8 h.senderbits.toNat) tail
    · rw [hbs, List.append_assoc, List.append_assoc]
    · simp only [List.length_append, leBytes_length, h.senderpub.property]
    · exact leBytes_length _ _
  rw [hostnet777Deserialize, hdest, hpub, hsender, htime, u64_read, u64_read, u32_read, Header.bytes_length, Header.received]
  by_cases hsigned : h.senderbits ≠ 0
  · have hsig : field (blit mem 0 bs) 52 32 = h.sig := by
      apply Subtype.ext
      apply field_part (leBytes 8 h.destbits.toNat ++ h.senderpub.val ++ leBytes 8 h.senderbits.toNat ++
        leBytes 4 h.timestamp.toNat) rest
      · rw [hbs, htail, if_pos hsigned]
        simp only [List.append_assoc]
      · simp only [List.length_append, leBytes_length, h.senderpub.property]
      · exact h.sig.property
    simp only [if_pos hsigned, hsig]
  · simp only [if_neg hsigned]

private theorem shift_eq (str : Nat → UInt8) (n : Nat) :
    rounds (fun str i => Function.update str i (str (i + 32))) str n = fun k => if k < n then str (k + 32) else str k := by
  induction n with
  | zero => rfl
  | succ n ih =>
    rw [rounds_succ, ih]
    funext k
    by_cases hk : k = n
    · rw [hk, Function.update_self, if_pos (Nat.lt_succ_self n)]
      exact if_neg (by omega)
    · rw [Function.update_of_ne hk]
      by_cases hlt : k < n
      · rw [if_pos hlt, if_pos (by omega)]
      · rw [if_neg hlt, if_neg (by omega)]

private theorem slice_shift (room : Nat → UInt8) {m : List UInt8} {n : Nat} (hm : m.length = 32 + n) :
    slice (rounds (fun str i => Function.update str i (str (i + 32))) (blit room 0 m) n) 0 n = m.drop 32 := by
  have hdrop : (m.drop 32).length = n := by
    rw [List.length_drop, hm, Nat.add_sub_cancel_left]
  apply List.ext_getElem (by rw [slice_length, hdrop])
  intro k hk hk'
  rw [slice_length] at hk
  have hin : k + 32 < m.length := by omega
  simp only [shift_eq]
  simp [slice, blit, hk, hin, Nat.add_comm]

variable {str : List UInt8} {destpubkey destprivkey myprivkey mypubkey sig : ByteString 32} {senderbits : UInt64}
variable {timestamp : UInt32} {nonce : ByteString 24} {room : Nat → UInt8} {e : Encoded}

theorem hostnet777Encode_isSome (hlen : str.length + 52 < 2^31) :
    ∃ e, hostnet777Encode nacl str destpubkey myprivkey mypubkey senderbits sig timestamp nonce = some e := by
  have htotal : signed 32 (str.length + 32 + 8 + 8 + 4) = str.length + 32 + 8 + 8 + 4 :=
    signed_of_bounds (by omega) (by omega)
  rw [hostnet777Encode]
  simp only [htotal]
  rw [if_neg (by omega)]
  split
  · exact ⟨_, rfl⟩
  · exact ⟨_, rfl⟩

theorem hostnet777Encode_open (hopen : ¬ Encrypted nacl destpubkey senderbits)
    (he : hostnet777Encode nacl str destpubkey myprivkey mypubkey senderbits sig timestamp nonce = some e) :
    let h : Header := ⟨mypubkey, senderbits, sig, timestamp, nacl.destbits destpubkey⟩
    e.bytes = blit (fun _ => 0) 0 (h.bytes ++ str) ∧ e.written = h.bytes.length + str.length := by
  intro h
  rw [hostnet777Encode, hostnet777Serialize_eq] at he
  split at he
  · cases he
  · simp only [if_neg (show ¬ (nacl.destbits destpubkey ≠ 0 ∧ senderbits ≠ 0) from hopen)] at he
    cases he
    rw [Out.write_write, Out.write, List.length_append, Nat.zero_add]
    exact ⟨rfl, rfl⟩

theorem hostnet777Encode_encrypted (hinv : nacl.Inverts) (henc : Encrypted nacl destpubkey senderbits)
    (he : hostnet777Encode nacl str destpubkey myprivkey mypubkey senderbits sig timestamp nonce = some e) :
    let h : Header := ⟨mypubkey, senderbits, sig, timestamp, nacl.destbits destpubkey⟩
    let c := nacl.cryptoBox (List.replicate 32 0 ++ str) nonce destpubkey myprivkey
    e.bytes = blit (fun _ => 0) 0 (h.bytes ++ (nonce.val ++ c)) ∧ e.written = str.length + 140 ∧
      e.cipherlen = signed 32 (signed 32 (signed 32 (str.length + 32 + 8 + 8 + 4) + 32) + (24 + 32)) := by
  intro h c
  have hc : c.length = str.length + 32 := by
    rw [hinv.box_length, List.length_append, List.length_replicate, Nat.add_comm]
  have hh : h.bytes.length = 84 := by
    rw [Header.bytes_length, if_pos henc.2]
  rw [hostnet777Encode, hostnet777Serialize_eq] at he
  split at he
  · cases he
  · simp only [if_pos (show nacl.destbits destpubkey ≠ 0 ∧ senderbits ≠ 0 from henc), if_pos henc.2] at he
    cases he
    rw [Out.write_write]
    refine ⟨?_, ?_, by dsimp only⟩
    · change blit (blit (blit _ 0 _) _ _) _ c = _
      rw [blit_blit (by rw [List.length_replicate, hc])]
      simp only [Out.write]
      rw [blit_append, List.append_assoc]
    · simp only [Out.write]
      rw [List.length_append, nonce.property]
      change 0 + (h.bytes.length + 24) + c.length = _
      omega

theorem Header.received_bits (h : Header) :
    h.received.destbits = h.destbits ∧ h.received.senderbits = h.senderbits ∧ h.received.senderpub = h.senderpub := by
  rw [Header.received]
  split
  · exact ⟨rfl, rfl, rfl⟩
  · exact ⟨rfl, rfl, rfl⟩

/-- The length of a message that is not encrypted is left as it came. -/
theorem hostnet777Decode_open {h : Header} (hopen : ¬ (h.destbits ≠ 0 ∧ h.senderbits ≠ 0)) {mem : Nat → UInt8}
    {rest : List UInt8} {len : Int} {d : Decoded}
    (hd : hostnet777Decode nacl room (blit mem 0 (h.bytes ++ rest)) len destprivkey = some d) : d.len = len := by
  obtain ⟨hdest, hsender, _⟩ := h.received_bits
  rw [hostnet777Decode, hostnet777Deserialize_bytes] at hd
  simp only [hdest, hsender, if_neg hopen] at hd
  split at hd
  · cases hd
  · cases hd
    rfl

theorem hostnet777Decode_encrypted (h : Header) (room mem : Nat → UInt8) (henc : h.destbits ≠ 0 ∧ h.senderbits ≠ 0)
    {c m : List UInt8} {n : Nat} (hopen : nacl.cryptoBoxOpen c nonce h.senderpub destprivkey = some m)
    (hc : c.length = 32 + n) (hm : m.length = 32 + n) :
    ∃ d, hostnet777Decode nacl room (blit mem 0 (h.bytes ++ (nonce.val ++ c))) (n + 140) destprivkey = some d ∧
      d.header = h ∧ d.err = 0 ∧ slice d.str 0 n = m.drop 32 ∧ d.len = n := by
  have hreceived : h.received = h := by
    rw [Header.received, if_pos henc.2]
  have hh : h.bytes.length = 84 := by
    rw [Header.bytes_length, if_pos henc.2]
  have hnonce : slice (blit mem 0 (h.bytes ++ (nonce.val ++ c))) 84 24 = nonce.val :=
    slice_blit_part (by rw [hh]) nonce.property
  have hcipher : slice (blit mem 0 (h.bytes ++ (nonce.val ++ c))) (84 + 24) (32 + n) = c := by
    have hpart : slice (blit mem 0 (h.bytes ++ nonce.val ++ (c ++ []))) (84 + 24) (32 + n) = c :=
      slice_blit_part (by rw [List.length_append, hh, nonce.property]) hc
    rw [List.append_nil, List.append_assoc] at hpart
    exact hpart
  have hrest : ((n : Int) + 140 - (84 : Nat) - 24).toNat = 32 + n := by omega
  rw [hostnet777Decode, hostnet777Deserialize_bytes, hreceived, hh]
  simp only [if_pos henc, hnonce, hrest, hcipher, hopen]
  rw [if_neg (by omega)]
  have hleft : ((n : Int) + 140 - (84 : Nat) - 24 - 32).toNat = n := by omega
  refine ⟨_, rfl, rfl, rfl, ?_, by push_cast; omega⟩
  rw [hleft]
  exact slice_shift room hm

/-- A message that is not encrypted comes back with the length of its header added. -/
theorem not_roundTrip_of_open (hopen : ¬ Encrypted nacl destpubkey senderbits) :
    ¬ RoundTrip nacl room str destpubkey destprivkey myprivkey mypubkey senderbits sig timestamp nonce := by
  rintro ⟨e, he, hcipherlen, d, hd, _, _, _, _, _, _, hlen⟩
  obtain ⟨hbytes, hwritten⟩ := hostnet777Encode_open hopen he
  rw [hbytes] at hd
  have hlen' : d.len = e.cipherlen :=
    hostnet777Decode_open (show ¬ (nacl.destbits destpubkey ≠ 0 ∧ senderbits ≠ 0) from hopen) hd
  rw [hcipherlen, hwritten, Header.bytes_length] at hlen'
  split at hlen' <;> omega

private theorem roundTrip_fits (hinv : nacl.Inverts) (henc : Encrypted nacl destpubkey senderbits)
    (h : RoundTrip nacl room str destpubkey destprivkey myprivkey mypubkey senderbits sig timestamp nonce) :
    str.length + 140 < 2^31 := by
  obtain ⟨e, he, hcipherlen, _⟩ := h
  obtain ⟨_, hwritten, htotal⟩ := hostnet777Encode_encrypted hinv henc he
  have hlt : e.cipherlen < 2^31 := by
    rw [htotal]
    exact Int.bmod_lt (by norm_num)
  rw [hcipherlen, hwritten] at hlt
  exact_mod_cast hlt

private theorem reported_length {n : Nat} (h : n + 140 < 2^31) :
    signed 32 (signed 32 (signed 32 (n + 32 + 8 + 8 + 4) + 32) + (24 + 32)) = n + 140 := by
  have hheader : signed 32 ((n : Int) + 32 + 8 + 8 + 4) = n + 52 := by
    rw [signed_of_bounds (by omega) (by omega)]
    omega
  have hsigned : signed 32 ((n : Int) + 52 + 32) = n + 84 := by
    rw [signed_of_bounds (by omega) (by omega)]
    omega
  rw [hheader, hsigned, signed_of_bounds (by omega) (by omega)]
  omega

/-- Exactly the encrypted messages come back as they were sent: those with a destination and a named
sender, up to the length that is still reported in 32 bits. -/
theorem roundTrip_iff (hinv : nacl.Inverts) (hlen : str.length < 2^31)
    (hkeys : Encrypted nacl destpubkey senderbits → destpubkey = nacl.keypair destprivkey ∧ mypubkey = nacl.keypair myprivkey) :
    RoundTrip nacl room str destpubkey destprivkey myprivkey mypubkey senderbits sig timestamp nonce ↔
      Encrypted nacl destpubkey senderbits ∧ str.length + 140 < 2^31 := by
  constructor
  · intro h
    by_cases henc : Encrypted nacl destpubkey senderbits
    · exact ⟨henc, roundTrip_fits hinv henc h⟩
    · exact absurd h (not_roundTrip_of_open henc)
  · rintro ⟨henc, hfits⟩
    obtain ⟨hdest, hmine⟩ := hkeys henc
    have hsome : ∃ e, hostnet777Encode nacl str destpubkey myprivkey mypubkey senderbits sig timestamp nonce = some e :=
      hostnet777Encode_isSome (by omega)
    obtain ⟨e, he⟩ := hsome
    obtain ⟨hbytes, hwritten, htotal⟩ := hostnet777Encode_encrypted hinv henc he
    have hpad : (List.replicate 32 (0 : UInt8) ++ str).length = 32 + str.length := by
      rw [List.length_append, List.length_replicate]
    have hinverse := hinv.open_box (List.replicate 32 0 ++ str) nonce myprivkey destprivkey
      (List.take_left' List.length_replicate)
    rw [← hdest, ← hmine] at hinverse
    obtain ⟨d, hd, hheader, herr, hstr, hback⟩ := hostnet777Decode_encrypted
      ⟨mypubkey, senderbits, sig, timestamp, nacl.destbits destpubkey⟩ room (fun _ => 0) henc hinverse
      ((hinv.box_length _ _ _ _).trans hpad) hpad
    rw [reported_length hfits] at htotal
    refine ⟨e, he, ?_, d, ?_, herr, ?_, ?_, ?_, ?_, ?_, hback⟩
    · rw [htotal, hwritten]
      exact_mod_cast rfl
    · rw [hbytes, htotal]
      exact hd
    · rw [hheader]
    · rw [hheader]
    · rw [hheader]
    · intro _
      rw [hheader]
    · rw [hstr, List.drop_left' List.length_replicate]

def alice : ByteString 32 := ⟨List.replicate 32 1, rfl⟩

def bob : ByteString 32 := ⟨List.replicate 32 2, rfl⟩

def alicePub : ByteString 32 :=
  ⟨[0xa4, 0xe0, 0x92, 0x92, 0xb6, 0x51, 0xc2, 0x78, 0xb9, 0x77, 0x2c, 0x56, 0x9f, 0x5f, 0xa9, 0xbb,
    0x13, 0xd9, 0x06, 0xb4, 0x6a, 0xb6, 0x8c, 0x9d, 0xf9, 0xdc, 0x2b, 0x44, 0x09, 0xf8, 0xa2, 0x09], rfl⟩

def bobPub : ByteString 32 :=
  ⟨[0xce, 0x8d, 0x3a, 0xd1, 0xcc, 0xb6, 0x33, 0xec, 0x7b, 0x70, 0xc1, 0x78, 0x14, 0xa5, 0xc7, 0x6e,
    0xcd, 0x02, 0x96, 0x85, 0x05, 0x0d, 0x34, 0x47, 0x45, 0xba, 0x05, 0x87, 0x0e, 0x58, 0x7d, 0x59], rfl⟩

def sampleNonce : ByteString 24 := ⟨List.replicate 24 3, rfl⟩

def samplePlain : List UInt8 := List.replicate 32 0 ++ [0x48, 0x69]

/-- The box of `samplePlain` between the two key pairs. -/
def sampleCipher : List UInt8 :=
  List.replicate 16 0 ++ [0x1a, 0xc5, 0x26, 0x1c, 0xa9, 0xfd, 0x24, 0xbb, 0x97, 0x33, 0xb7, 0xaa, 0x40, 0x04, 0x06, 0x72, 0xab, 0x42]

/-- The two halves of a channel between the sample key pairs. -/
def linked (pubkey privkey : ByteString 32) : Prop := (pubkey = bobPub ∧ privkey = alice) ∨ (pubkey = alicePub ∧ privkey = bob)

instance decidableLinked (pubkey privkey : ByteString 32) : Decidable (linked pubkey privkey) :=
  inferInstanceAs (Decidable ((pubkey = bobPub ∧ privkey = alice) ∨ (pubkey = alicePub ∧ privkey = bob)))

def sampleBox (m : List UInt8) (nonce : ByteString 24) (pubkey privkey : ByteString 32) : List UInt8 :=
  if nonce = sampleNonce ∧ linked pubkey privkey then Equiv.swap samplePlain sampleCipher m else m

/-- The cipher library at two key pairs, one nonce and one message, with the digest of `bobPub`. -/
def sampleNacl : Nacl where
  calcSha256 _ :=
    ⟨[0xcf, 0xa5, 0x70, 0xc6, 0x53, 0xbd, 0x21, 0x2b, 0x10, 0xa9, 0xcb, 0x55, 0x1f, 0xd7, 0xa1, 0xb4,
      0x78, 0x98, 0x55, 0xee, 0x17, 0xe9, 0x9e, 0xf2, 0xb3, 0xa2, 0x03, 0x7f, 0xeb, 0x33, 0x7a, 0x08], rfl⟩
  keypair privkey := if privkey = alice then alicePub else if privkey = bob then bobPub else zeroSig
  cryptoBox := sampleBox
  cryptoBoxOpen c nonce pubkey privkey := some (sampleBox c nonce pubkey privkey)

private theorem keypair_alice {privkey : ByteString 32} : sampleNacl.keypair privkey = alicePub ↔ privkey = alice := by
  simp only [sampleNacl]
  split
  case isTrue h => exact iff_of_true rfl h
  case isFalse h =>
    refine iff_of_false ?_ h
    split <;> decide

private theorem keypair_bob {privkey : ByteString 32} : sampleNacl.keypair privkey = bobPub ↔ privkey = bob := by
  simp only [sampleNacl]
  split
  case isTrue h =>
    subst h
    decide
  case isFalse _ =>
    split
    case isTrue h => exact iff_of_true rfl h
    case isFalse h => exact iff_of_false (by decide) h

private theorem linked_comm (a b : ByteString 32) :
    linked (sampleNacl.keypair b) a ↔ linked (sampleNacl.keypair a) b := by
  rw [linked, linked, keypair_alice, keypair_alice, keypair_bob, keypair_bob, and_comm, or_comm,
    and_comm (a := b = alice)]

theorem sampleNacl_inverts : sampleNacl.Inverts where
  box_length m nonce pubkey privkey := by
    change (sampleBox m nonce pubkey privkey).length = m.length
    rw [sampleBox]
    split
    · rw [Equiv.swap_apply_def]
      split
      case isTrue h => rw [h]; rfl
      case isFalse _ =>
        split
        case isTrue h => rw [h]; rfl
        case isFalse _ => rfl
    · rfl
  open_box m nonce a b _ := by
    change some (sampleBox (sampleBox m nonce (sampleNacl.keypair b) a) nonce (sampleNacl.keypair a) b) = some m
    rw [sampleBox, sampleBox]
    by_cases h : nonce = sampleNonce ∧ linked (sampleNacl.keypair b) a
    · rw [if_pos h, if_pos (by rw [← linked_comm]; exact h), Equiv.swap_apply_self]
    · rw [if_neg h, if_neg (by rw [← linked_comm]; exact h)]

/-- A message from one key pair to the other comes back. -/
theorem encrypted_message_returns :
    RoundTrip sampleNacl (fun _ => 0) [0x48, 0x69] bobPub bob alice alicePub 10200895401695023642 zeroSig 1438300000 sampleNonce :=
  (roundTrip_iff sampleNacl_inverts (by decide) (fun _ => ⟨by decide, by decide⟩)).mpr
    ⟨⟨by decide, by decide⟩, by decide⟩

/-- A signed broadcast of the same message does not: its 2 bytes are given the length 86. -/
theorem broadcast_keeps_length :
    ¬ RoundTrip sampleNacl (fun _ => 0) [0x48, 0x69] ⟨genesisPubkey, rfl⟩ bob alice alicePub 10200895401695023642 zeroSig
      1438300000 sampleNonce :=
  not_roundTrip_of_open fun h => h.1 (by decide)

end SuperNet.Common.Hostnet777
