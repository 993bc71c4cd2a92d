import Mathlib.Tactic

/-! Computations over a byte memory that log what they read and what they store. -/
namespace SuperNet.Lib.AccessLog

/-- A byte read at an offset, or a string of `chars` characters (with its end mark)
stored in a buffer with `room` for so many. -/
inductive Access where
  | read (offset : Int)
  | store (chars room : Nat)
  deriving DecidableEq, Repr

/-- Reads stay inside the first `len` bytes and stores inside their buffers. -/
def Access.Inside (len : Nat) : Access → Prop
  | .read offset => 0 ≤ offset ∧ offset < len
  | .store chars room => chars ≤ room

structure Logged (α : Type) where
  value : α
  log : List Access

variable {α β : Type}

def Logged.andThen (m : Logged α) (f : α → Logged β) : Logged β :=
  ⟨(f m.value).value, m.log ++ (f m.value).log⟩

instance : Monad Logged where
  pure a := ⟨a, []⟩
  bind := Logged.andThen

def Logged.Safe (len : Nat) (m : Logged α) : Prop := ∀ a ∈ m.log, a.Inside len

@[simp] theorem value_pure (a : α) : (pure a : Logged α).value = a := rfl

@[simp] theorem value_bind (m : Logged α) (f : α → Logged β) : (m >>= f).value = (f m.value).value := rfl

@[simp] theorem safe_pure (len : Nat) (a : α) : (pure a : Logged α).Safe len :=
  fun _ h => absurd h List.not_mem_nil

theorem safe_bind {len : Nat} {m : Logged α} {f : α → Logged β} :
    (m >>= f).Safe len ↔ m.Safe len ∧ (f m.value).Safe len :=
  List.forall_mem_append

abbrev Memory := Int → UInt8

def readByte (data : Memory) (offset : Int) : Logged UInt8 := ⟨data offset, [.read offset]⟩

/-- `n` bytes from `offset` on. -/
def readBytes (data : Memory) : Int → Nat → Logged (List UInt8)
  | _, 0 => pure []
  | offset, n+1 => do
    let b ← readByte data offset
    let bs ← readBytes data (offset+1) n
    pure (b :: bs)

def logStore (chars room : Nat) : Logged Unit := ⟨(), [.store chars room]⟩

theorem safe_readByte {data : Memory} {offset : Int} {len : Nat} :
    (readByte data offset).Safe len ↔ 0 ≤ offset ∧ offset < len := by
  constructor
  · intro h
    exact h (.read offset) (List.mem_singleton_self _)
  · intro h a ha
    obtain rfl := List.mem_singleton.mp ha
    exact h

theorem safe_logStore {chars room len : Nat} : (logStore chars room).Safe len ↔ chars ≤ room := by
  constructor
  · intro h
    exact h (.store chars room) (List.mem_singleton_self _)
  · intro h a ha
    obtain rfl := List.mem_singleton.mp ha
    exact h

theorem safe_readBytes {data : Memory} {offset : Int} {n len : Nat} :
    (readBytes data offset n).Safe len ↔ n = 0 ∨ 0 ≤ offset ∧ offset + n ≤ len := by
  induction n generalizing offset with
  | zero => exact ⟨fun _ => .inl rfl, fun _ => safe_pure len []⟩
  | succ n ih =>
    rw [readBytes, safe_bind, safe_readByte, safe_bind, ih]
    constructor
    · rintro ⟨h, h' | h', -⟩
      · subst h'
        exact .inr (by push_cast; omega)
      · exact .inr (by push_cast; omega)
    · rintro (h | h)
      · omega
      · push_cast at h
        exact ⟨by omega, by omega, safe_pure len _⟩

/-- Memory that holds `bytes` from offset 0 on and anything elsewhere. -/
def memory (bytes : List UInt8) (junk : Memory) : Memory := fun i =>
  if 0 ≤ i ∧ i < bytes.length then bytes.getD i.toNat 0 else junk i

structure Tail (bytes : List UInt8) (pos : Nat) (tail : List UInt8) : Prop where
  inside : pos ≤ bytes.length
  drop : bytes.drop pos = tail

theorem tail_zero (bytes : List UInt8) : Tail bytes 0 bytes := ⟨Nat.zero_le _, rfl⟩

theorem Tail.length {bytes tail : List UInt8} {pos : Nat} (h : Tail bytes pos tail) :
    pos + tail.length = bytes.length := by
  have := h.inside
  rw [← h.drop, List.length_drop]
  omega

theorem Tail.advance {bytes a rest : List UInt8} {pos : Nat} (h : Tail bytes pos (a ++ rest)) :
    Tail bytes (pos + a.length) rest := by
  have hl := h.length
  rw [List.length_append] at hl
  refine ⟨by omega, ?_⟩
  rw [← List.drop_drop, h.drop, List.drop_left]

theorem Tail.byte {bytes tail : List UInt8} {pos : Nat} (h : Tail bytes pos tail) (junk : Memory) (i : Nat)
    (hi : i < tail.length) : memory bytes junk ((pos : Int) + i) = tail.getD i 0 := by
  have hl := h.length
  rw [memory, if_pos (by omega), show ((pos : Int) + i).toNat = pos + i by omega, ← h.drop]
  simp [List.getElem?_drop]

theorem Tail.readBytes_value {bytes a rest : List UInt8} {pos : Nat} (h : Tail bytes pos (a ++ rest)) (junk : Memory) :
    (readBytes (memory bytes junk) pos a.length).value = a := by
  induction a generalizing pos with
  | nil => rfl
  | cons b a ih =>
    have hb := h.byte junk 0 (by simp)
    have hrest := ih (h.advance (a := [b]))
    rw [List.length_cons, readBytes, value_bind, value_bind, value_pure]
    rw [List.length_singleton, Nat.cast_add, Nat.cast_one] at hrest
    rw [hrest]
    simpa [readByte] using hb

end SuperNet.Lib.AccessLog
