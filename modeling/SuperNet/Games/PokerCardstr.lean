import SuperNet.Games.PokerRanking

/-! How the cards of a table are shown. The evaluator takes the first card of a suit for its two, and so does
`DisplayCard`; `cardstr`, which prints the cards for the players, shows it as the ace. -/
namespace SuperNet.Games.Poker
open Holdem

def displayCard (c : Nat) : List Char :=
  let suitdisp := ['\x00', 'c', 'd', '\x00', 'h', '\x00', '\x00', '\x00', 's']
  [' ', "        1    ".toList.getD (cardValue c) '\x00', "234567890JQKA".toList.getD (cardValue c) '\x00',
    suitdisp.getD (cardSuit c) '\x00']

/-- The printed ranks, the lowest first. -/
def printedRanks : List (List Char) :=
  [['2'], ['3'], ['4'], ['5'], ['6'], ['7'], ['8'], ['9'], ['1', '0'], ['J'], ['Q'], ['K'], ['A']]

/-- A printed card, as a player reads it. -/
def readCard (s : List Char) : Card :=
  let s := s.filter fun c => c ≠ ' '
  ⟨printedRanks.idxOf s.dropLast, s.getLastD ' '⟩

def shown (c : Nat) : Card := readCard (cardstr c)
def displayed (c : Nat) : Card := readCard (displayCard c)

theorem shown_eq : ∀ c < 52, shown c =
    ⟨if c % 13 = 0 then 12 else c % 13 - 1, ['C', 'D', 'H', 'S'].getD (cardSuitIdx c) ' '⟩ := by decide +kernel

theorem displayed_eq : ∀ c < 52, displayed c = ⟨cardValue c, ['c', 'd', 'h', 's'].getD (cardSuitIdx c) ' '⟩ := by
  decide +kernel

private theorem suit_inj : ∀ s < 4, ∀ s' < 4,
    (['C', 'D', 'H', 'S'].getD s ' ' = ['C', 'D', 'H', 'S'].getD s' ' ' ↔ s = s') ∧
      (['c', 'd', 'h', 's'].getD s ' ' = ['c', 'd', 'h', 's'].getD s' ' ' ↔ s = s') := by decide

private theorem cardSuitIdx_lt {c : Nat} (h : c < 52) : cardSuitIdx c < 4 := by
  rw [cardSuitIdx]
  omega

theorem reads_displayed (h : Hand) : Reads displayed h := by
  constructor
  · intro c hc
    rw [displayed_eq c (h.isCard c hc)]
  · intro c hc d hd
    have hc' := h.isCard c hc
    have hd' := h.isCard d hd
    rw [displayed_eq c hc', displayed_eq d hd']
    exact (suit_inj _ (cardSuitIdx_lt hc') _ (cardSuitIdx_lt hd')).2

/-- Without a card that is shown as an ace, the evaluator reads every card one rank higher than it is shown. -/
theorem reads_shown {h : Hand} (hace : ∀ c ∈ h.cards, (shown c).height ≠ 12) : Reads (fun c => (shown c).up) h := by
  constructor
  · intro c hc
    have hne := hace c hc
    rw [shown_eq c (h.isCard c hc)] at hne
    have hzero : c % 13 ≠ 0 := fun hzero => hne (if_pos hzero)
    rw [shown_eq c (h.isCard c hc), if_neg hzero, cardValue, Card.up]
    dsimp only
    omega
  · intro c hc d hd
    have hc' := h.isCard c hc
    have hd' := h.isCard d hd
    rw [shown_eq c hc', shown_eq d hd']
    exact (suit_inj _ (cardSuitIdx_lt hc') _ (cardSuitIdx_lt hd')).1

private theorem height_lt {h : Hand} (hace : ∀ c ∈ h.cards, (shown c).height ≠ 12) :
    ∀ card ∈ h.cards.map shown, card.height < 12 := by
  intro card hcard
  obtain ⟨c, hc, rfl⟩ := List.mem_map.mp hcard
  have hle : ∀ c < 52, (shown c).height ≤ 12 := by decide +kernel
  exact Nat.lt_of_le_of_ne (hle c (h.isCard c hc)) (hace c hc)

theorem setHandstr_eq (h : Hand) : setHandstr h.cards = sevenCardDrawScore h.cards := by
  rw [setHandstr, if_neg]
  rintro ⟨c, hc, hge⟩
  exact Nat.not_le_of_lt (h.isCard c hc) hge

def Agrees (h h' : Hand) : Prop :=
  cmp (setHandstr h.cards) (setHandstr h'.cards) = cmp (ranking (h.cards.map shown)) (ranking (h'.cards.map shown))

/-- The scores follow the shown cards for the hands that compare the same when they are read as `DisplayCard` prints
them, and those without aces all do. -/
theorem agrees_iff_displayed (h h' : Hand) :
    (Agrees h h' ↔ cmp (ranking (h.cards.map displayed)) (ranking (h'.cards.map displayed)) =
      cmp (ranking (h.cards.map shown)) (ranking (h'.cards.map shown))) ∧
    ((∀ c ∈ h.cards ++ h'.cards, (shown c).height ≠ 12) → Agrees h h') := by
  constructor
  · rw [Agrees, setHandstr_eq, setHandstr_eq, (reads_displayed h).cmp_score (reads_displayed h')]
  · intro hace
    have hleft : ∀ c ∈ h.cards, (shown c).height ≠ 12 := fun c hc => hace c (List.mem_append_left _ hc)
    have hright : ∀ c ∈ h'.cards, (shown c).height ≠ 12 := fun c hc => hace c (List.mem_append_right _ hc)
    have hup : ∀ h : Hand, h.cards.map (fun c => (shown c).up) = (h.cards.map shown).map Card.up := by
      intro h
      rw [List.map_map]
      rfl
    have hlen : ∀ h : Hand, 5 ≤ (h.cards.map shown).length := by
      intro h
      rw [List.length_map, h.length_eq]
      decide
    rw [Agrees, setHandstr_eq, setHandstr_eq, (reads_shown hleft).cmp_score (reads_shown hright), hup, hup]
    exact cmp_ranking_up (height_lt hleft) (height_lt hright) (hlen h) (hlen h')

/-- Kings and queens, with the same five cards on the table. -/
def kings : Hand := ⟨[12, 25, 2, 17, 32, 47, 23], rfl, by decide, by decide⟩
def queens : Hand := ⟨[11, 24, 2, 17, 32, 47, 23], rfl, by decide, by decide⟩

theorem agrees_iff_displayed_kings : Agrees kings queens :=
  (agrees_iff_displayed kings queens).2 (by decide +kernel)

/-- The hand of a player who is shown two aces. -/
def aces : Hand := ⟨[0, 13, 2, 17, 32, 47, 23], rfl, by decide, by decide⟩

/-- The aces that a player is shown lose to the kings. -/
theorem not_agrees_aces : cmp (setHandstr aces.cards) (setHandstr kings.cards) = .lt ∧
    cmp (ranking (aces.cards.map shown)) (ranking (kings.cards.map shown)) = .gt ∧ ¬ Agrees aces kings := by
  have hscore : cmp (setHandstr aces.cards) (setHandstr kings.cards) = .lt := by decide +kernel
  have hshown : cmp (ranking (aces.cards.map shown)) (ranking (kings.cards.map shown)) = .gt := by decide +kernel
  refine ⟨hscore, hshown, ?_⟩
  rw [Agrees, hscore, hshown]
  exact Ordering.noConfusion

end SuperNet.Games.Poker
