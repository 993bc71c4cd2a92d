import SuperNet.Lib.Words

/-! The hand evaluator of poker.c. An `u32` is a number below `2^32`. -/
namespace SuperNet.Games.Poker
open Lib.Words

def straightFlushScore : Nat := 8 <<< 27
def fourKindScore : Nat := 7 <<< 27
def fullHouseScore : Nat := 6 <<< 27
def flushScore : Nat := 5 <<< 27
def straightScore : Nat := 4 <<< 27
def threeKindScore : Nat := 3 <<< 27
def twoPairScore : Nat := 2 <<< 27
def twoKindScore : Nat := 1 <<< 27
def subrShl : Nat := 13

/-- The entries of `CardValue`, `CardSuit`, `CardSuitIdx` and `CardMask`. -/
def cardValue (c : Nat) : Nat := c % 13
def cardSuit (c : Nat) : Nat := 1 <<< (c / 13)
def cardSuitIdx (c : Nat) : Nat := c / 13
def cardMask (c : Nat) : Nat := 1 <<< (c % 13)

def cardstr (card : Nat) : List Char :=
  let cardc := "A234567890JQK".toList
  let suitc := ['C', 'D', 'H', 'S']
  let suit := card / 13
  let card := card % 13
  if card = 9 then ['1', '0', suitc.getD suit '\x00'] else [cardc.getD card '\x00', suitc.getD suit '\x00']

def sub32 (x y : Nat) : Nat := (x + (2^32 - y)) % 2^32
def not32 (x : Nat) : Nat := 2^32 - 1 - x
def shl32 (x n : Nat) : Nat := x <<< n % 2^32

/-- `x & (x - 1)`. -/
def ripLow (x : Nat) : Nat := x &&& sub32 x 1

/-- The masks of the ranks that occur at least once, twice, three and four times. -/
structure Kinds where
  m1 : Nat
  m2 : Nat
  m3 : Nat
  m4 : Nat
  deriving DecidableEq, Repr

/-- The four lines that take a card into the masks. -/
def Kinds.add (m : Kinds) (c : Nat) : Kinds where
  m4 := m.m4 ||| (c &&& m.m3)
  m3 := m.m3 ||| (c &&& m.m2)
  m2 := m.m2 ||| (c &&& m.m1)
  m1 := m.m1 ||| c

/-- The masks of some cards, which the source builds without a loop. -/
def kinds (c : List Nat) : Kinds := c.foldl Kinds.add ⟨0, 0, 0, 0⟩

/-- `FiveCardDrawScoreFast` for five different ranks. -/
def fiveDistinct (m1 u : Nat) : Nat :=
  let z := ripLow m1 ^^^ m1
  let y := sub32 (shl32 z 5) z
  if m1 = 0x100F then if u ≠ 0 then straightScore + 0xF else straightFlushScore + 0xF
  else if y = m1 then if u ≠ 0 then straightScore + m1 else straightFlushScore + m1
  else if u ≠ 0 then m1
  else flushScore + m1

/-- `FiveCardDrawScoreFast` for the other hands. -/
def fivePaired (m : Kinds) : Nat :=
  let m1 := m.m1 &&& not32 m.m2
  if m.m3 = 0 then
    if ripLow m.m2 = 0 then twoKindScore + shl32 m.m2 subrShl + m1
    else twoPairScore + shl32 m.m2 subrShl + m1
  else
    let m2 := m.m2 &&& not32 m.m3
    if m.m4 = 0 then
      if m2 = 0 then threeKindScore + shl32 m.m3 subrShl + m1
      else fullHouseScore + shl32 m.m3 subrShl + m2
    else fourKindScore + shl32 m.m4 subrShl + m1

def fiveCardDrawScoreFast (c : List Nat) (u : Nat) : Nat :=
  let u := ripLow u
  let m := kinds c
  if m.m2 = 0 then fiveDistinct m.m1 u else fivePaired m

def fiveCardDrawScore (h : List Nat) : Nat :=
  fiveCardDrawScoreFast (h.map cardMask) (h.foldl (fun u c => u ||| cardSuit c) 0)

/-- The arrays `f` and `cc` of `SevenCardDrawFlush`. -/
structure Suits where
  f : Nat → Nat
  cc : Nat → Int

def Suits.add (s : Suits) (card : Nat) : Suits :=
  let i := cardSuitIdx card
  { f := Function.update s.f i (s.f i ||| cardMask card)
    cc := Function.update s.cc i (s.cc i - 1) }

def lg2tab : List Int := [-1, 0, 1, -1, 2, -1, -1, -1, 3]

/-- The loop of `SevenCardDrawFlush` that rips off the last bit, `n` rounds of it. -/
def ripTimes : Nat → Nat → Nat
  | 0, t => t
  | n + 1, t => ripTimes n (ripLow t)

def sevenCardDrawFlush (h : List Nat) : Nat :=
  let suits := h.foldl Suits.add ⟨fun _ => 0, fun _ => 4⟩
  if suits.cc 0 < 0 ∨ suits.cc 1 < 0 ∨ suits.cc 2 < 0 ∨ suits.cc 3 < 0 then
    let s := (unsigned 32 (suits.cc 0) &&& 8 ||| unsigned 32 (suits.cc 1) &&& 16 |||
      unsigned 32 (suits.cc 2) &&& 32 ||| unsigned 32 (suits.cc 3) &&& 64) >>> 3
    let s := (lg2tab.getD s 0).toNat
    let t := ripTimes (-1 - suits.cc s).toNat (suits.f s)
    suits.f s ||| shl32 t subrShl
  else 0

def sevenCardDrawFlushScore (f : Nat) : Nat := flushScore + f >>> subrShl

/-- `(v << n) - 1` without what is left of it `k` bits further down. -/
def runMask (v n k : Nat) : Nat :=
  let u := sub32 (shl32 v n) 1
  u &&& not32 (u >>> k)

/-- `u = s & (s - 1); u ^= s`. -/
def lowest (s : Nat) : Nat := ripLow s ^^^ s

/-- The bicycle or the flush of a flush mask. -/
def wheelFlush (f : Nat) : Nat :=
  if 0x100F &&& f = 0x100F then straightFlushScore + 0xF else sevenCardDrawFlushScore f

/-- What is done for a run `u` of `n` ranks, at least five of them. -/
def runScore (n f u : Nat) : Nat :=
  if f ≠ 0 then
    let s := f &&& u
    let u := runMask (lowest s) n 5
    match (List.range (n - 4)).find? fun k => (u >>> k) &&& s = u >>> k with
    | some k => straightFlushScore + u >>> k
    | none => wheelFlush f
  else straightScore + (u &&& not32 (u >>> 5))

/-- The run of 7, 6 or 5 ranks that `SevenCardDrawScore` finds in the mask `t`, with their number. -/
def sevenRun (t : Nat) : Option (Nat × Nat) :=
  let s := ripLow t
  let v := s ^^^ t
  let u := runMask v 7 7
  if u &&& t = u then some (7, u)
  else
    let u := runMask v 6 6
    let u := if u &&& t ≠ u then runMask (lowest s) 6 6 else u
    if u &&& t = u then some (6, u)
    else
      let u := runMask v 5 5
      let u := if u &&& t ≠ u then
          let v := lowest s
          let s := ripLow s
          let u := runMask v 5 5
          if u &&& t ≠ u then runMask (lowest s) 5 5 else u
        else u
      if u &&& t = u then some (5, u) else none

/-- The part of `SevenCardDrawScore` for runs and the bicycle. -/
def sevenStraight (t f : Nat) : Option Nat :=
  match sevenRun t with
  | some (n, u) => some (runScore n f u)
  | none =>
    if 0x100F &&& t = 0x100F then some (if f ≠ 0 then wheelFlush f else straightScore + 0xF) else none

/-- `while ( (m2 = (m1 & (m1 - 1))) != 0 ) m1 = m2;` for a mask of at most `n + 1` bits. -/
def topLoop : Nat → Nat → Nat
  | 0, m1 => m1
  | n + 1, m1 => if ripLow m1 ≠ 0 then topLoop n (ripLow m1) else m1

/-- The part of `SevenCardDrawScore` for the other hands; `m1` is the mask of the singletons. -/
def sevenPaired (m : Kinds) (f : Nat) : Nat :=
  let m1 := m.m1 &&& not32 m.m2
  if m.m3 = 0 then
    if f ≠ 0 then sevenCardDrawFlushScore f
    else if m.m2 ≠ 0 then
      let s := ripLow m.m2
      if s = 0 then
        let t := ripLow m1
        let t := ripLow t
        twoKindScore + shl32 m.m2 subrShl + t
      else
        let v := m1
        let t := ripLow s
        let (v, m2) := if t ≠ 0 then (v ||| (m.m2 ^^^ s), s) else (ripLow v, m.m2)
        let v := ripLow v
        twoPairScore + shl32 m2 subrShl + v
    else ripLow (ripLow m1)
  else if m.m4 ≠ 0 then
    let m1 := m1 ||| (m.m2 &&& not32 m.m4)
    fourKindScore + shl32 m.m4 subrShl + topLoop 31 m1
  else if m.m2 &&& not32 m.m3 = 0 then
    let t := ripLow m.m3
    if t ≠ 0 then fullHouseScore + shl32 t subrShl + (m.m3 ^^^ t)
    else if f ≠ 0 then sevenCardDrawFlushScore f
    else threeKindScore + shl32 m.m3 subrShl + ripLow (ripLow m1)
  else
    let m2 := m.m2 &&& not32 m.m3
    let t := ripLow m2
    fullHouseScore + shl32 m.m3 subrShl + if t = 0 then m2 else t

def sevenCardDrawScore (h : List Nat) : Nat :=
  let c := h.map cardMask
  let f := sevenCardDrawFlush h
  let t := c.foldl (fun t c => t ||| c) 0
  match sevenStraight t f with
  | some score => score
  | none => sevenPaired (kinds c) f

/-- The loops of `SevenCardDrawScoreSlow`, which leave out the cards `i` and `j`. -/
def sevenCardDrawScoreSlow (h : List Nat) : Nat :=
  (List.range 6).foldl (fun m i =>
    (List.range' (i + 1) (6 - i)).foldl (fun m j =>
      let r := fiveCardDrawScore ((h.eraseIdx j).eraseIdx i)
      if r > m then r else m) m) 0

def setHandstr (cards : List Nat) : Nat := if ∃ c ∈ cards, c ≥ 52 then 0 else sevenCardDrawScore cards

/-- Seven distinct cards. -/
structure Hand where
  cards : List Nat
  length_eq : cards.length = 7
  nodup : cards.Nodup
  isCard : ∀ c ∈ cards, c < 52

end SuperNet.Games.Poker
