import Mathlib.Algebra.Order.Group.Int
import DataStructAlgorithm.Algorithm.Shuffle.Shuffle

/-! # The arrangements that the shuffles make

A shuffle whose indices stay within the deck leaves a deck. `shuffle_pro` chooses every index
among the cards that have not been passed, so that each arrangement has one vector of indices. -/

namespace DataStructAlgorithm.Algorithm.Shuffle

open Foundation

variable {size : Nat} {randIdx otherIdx : Nat → Nat} {mV after : Contents Int}

/-! ## One call -/

/-- Every index is one of a card. -/
def InDeck (size : Nat) (randIdx : Nat → Nat) : Prop :=
  ∀ i ∈ Set.Icc 1 size, randIdx i ∈ Set.Icc 1 size

/-- Every index is the one of a card that has not been passed. -/
def Ahead (size : Nat) (randIdx : Nat → Nat) : Prop :=
  ∀ i ∈ Set.Icc 1 size, i ≤ randIdx i ∧ randIdx i ≤ size

theorem Ahead.inDeck (chosen : Ahead size randIdx) : InDeck size randIdx := by
  intro i within
  have range := chosen i within
  exact ⟨Nat.le_trans within.1 range.1, range.2⟩

/-- The indices as the choices of an exchange of all cards. -/
def choices (randIdx : Nat → Nat) (places : List Nat) : List Int :=
  places.map fun i => (randIdx i : Int)

theorem exchange_spec (inDeck : InDeck size randIdx) (start count : Nat) (positive : 1 ≤ start)
    (ends : start + count = size + 1) (mV : Contents Int) :
    runAll (fun mV (i : Nat) => swapAt (deckSpan size) mV i (randIdx i)) mV
        (List.range' start count) =
      .ok (exchangeAll mV start (choices randIdx (List.range' start count))) := by
  induction count generalizing start mV with
  | zero => rfl
  | succ count induction =>
      have range := Set.mem_Icc.mp (inDeck start ⟨positive, by omega⟩)
      have swapped := (deckSpan_covers size).swapAt_eq mV start (randIdx start) (by omega)
        (by omega) (by omega) (by omega)
      rw [List.range'_succ, runAll, swapped, Outcome.ok_bind,
        induction (start + 1) (by omega) (by omega)]
      rfl

theorem exchangeCards_eq (inDeck : InDeck size randIdx) (mV : Contents Int) :
    exchangeCards size randIdx mV = .ok (exchangeAll mV 1 (choices randIdx (indices size))) :=
  exchange_spec inDeck 1 size (Nat.le_refl 1) (Nat.add_comm 1 size) mV

theorem exchangeCards_congr (same : ∀ i ∈ Set.Icc 1 size, randIdx i = otherIdx i)
    (mV : Contents Int) : exchangeCards size randIdx mV = exchangeCards size otherIdx mV := by
  apply runAll_congr
  intro now i member
  rw [same i (mem_indices.mp member)]

/-- An index behind the deck is a fault. -/
theorem exchangeCards_within (returned : exchangeCards size randIdx mV = .ok after) {i : Nat}
    (within : i ∈ Set.Icc 1 size) : randIdx i ≤ size := by
  rcases runAll_taken returned (mem_indices.mpr within) with ⟨before, next, swapped⟩
  have inside : (randIdx i : Int) ≤ ((size + 1 : Nat) : Int) - 1 := (swapAt_eq_ok swapped).2.1.2
  omega

/-- The cards are exchanged with each other only. -/
theorem exchange_rearranges (inDeck : InDeck size randIdx) (places : List Nat)
    (cards : ∀ i ∈ places, i ∈ Set.Icc 1 size) (mV : Contents Int) :
    ∃ after, runAll (fun mV (i : Nat) => swapAt (deckSpan size) mV i (randIdx i)) mV places =
      .ok after ∧ Rearranges 1 size mV after := by
  have every : EveryStep (fun mV (i : Nat) => swapAt (deckSpan size) mV i (randIdx i))
      (fun _ i => i ∈ Set.Icc 1 size) mV places :=
    .of_mem (fun i member _ => cards i member) mV
  refine runAll_total (Rearranges 1 size mV) ?_ places mV (.refl 1 size mV) every
  intro now i rearranges card
  have first := Set.mem_Icc.mp card
  have second := Set.mem_Icc.mp (inDeck i card)
  refine ⟨_, (deckSpan_covers size).swapAt_eq now i (randIdx i) (by omega) (by omega) (by omega)
    (by omega), ?_⟩
  exact rearranges.trans (.exchange (by omega) (by omega) (by omega) (by omega) now)

theorem exchangeCards_rearranges (inDeck : InDeck size randIdx) (mV : Contents Int) :
    ∃ after, exchangeCards size randIdx mV = .ok after ∧ Rearranges 1 size mV after :=
  exchange_rearranges inDeck (indices size) (fun _ member => mem_indices.mp member) mV

/-! ## Choices -/

theorem choices_iff (start count : Nat) (ends : start + count = size + 1) :
    Choices start size (choices randIdx (List.range' start count)) ↔
      ∀ i, start ≤ i → i ≤ size → i ≤ randIdx i ∧ randIdx i ≤ size := by
  induction count generalizing start with
  | zero =>
      rw [List.range'_zero, choices, List.map_nil, Choices]
      refine ⟨fun _ i above below => ?_, fun _ => ?_⟩
      · omega
      · omega
  | succ count induction =>
      have rest := induction (start + 1) (by omega)
      rw [List.range'_succ, choices, List.map_cons, Choices, ← choices]
      rw [Nat.cast_add, Nat.cast_one] at rest
      rw [rest]
      constructor
      · rintro ⟨first, others⟩ i above below
        rcases Nat.eq_or_lt_of_le above with rfl | later
        · omega
        · exact others i later below
      · intro all
        have first := all start (Nat.le_refl start) (by omega)
        exact ⟨by omega, fun i above below => all i (by omega) below⟩

theorem Ahead.choices (chosen : Ahead size randIdx) :
    Choices 1 size (choices randIdx (indices size)) :=
  (choices_iff 1 size (Nat.add_comm 1 size)).mpr fun i above below => chosen i ⟨above, below⟩

/-- All choices are made by indices. -/
theorem exists_randIdx (start count : Nat) (ends : start + count = size + 1) (list : List Int)
    (chosen : Choices start size list) :
    ∃ randIdx, list = choices randIdx (List.range' start count) := by
  induction count generalizing start list with
  | zero =>
      cases list with
      | nil => exact ⟨id, rfl⟩
      | cons choice rest =>
          have range := chosen.1
          omega
  | succ count induction =>
      cases list with
      | nil =>
          have passed : (size : Int) < start := chosen
          omega
      | cons choice rest =>
          have range := chosen.1
          rcases induction (start + 1) (by omega) rest (by exact_mod_cast chosen.2) with
            ⟨later, rfl⟩
          refine ⟨Function.update later start choice.toNat, ?_⟩
          rw [List.range'_succ, choices, choices, List.map_cons, Function.update_self,
            Int.toNat_of_nonneg (by omega)]
          apply congrArg
          apply List.map_congr_left
          intro i member
          have above := (List.mem_range'_1.mp member).1
          rw [Function.update_of_ne (by omega)]

/-- Two vectors of indices that make the same arrangement of a new deck are the same. -/
theorem eqOn_of_exchangeCards (chosen : Ahead size randIdx) (otherChosen : Ahead size otherIdx)
    (same : exchangeCards size randIdx (ordered size) =
      exchangeCards size otherIdx (ordered size)) : Set.EqOn randIdx otherIdx (Set.Icc 1 size) := by
  rw [exchangeCards_eq chosen.inDeck, exchangeCards_eq otherChosen.inDeck] at same
  have lists := exchangeAll_injective (ordered_injOn size) chosen.choices otherChosen.choices
    (Except.ok.inj same)
  intro i within
  have entries := List.map_inj_left.mp lists i (mem_indices.mpr within)
  exact Int.ofNat_inj.mp entries

theorem exists_exchangeCards (rearranges : Rearranges 1 size (ordered size) mV) :
    ∃ randIdx, Ahead size randIdx ∧ exchangeCards size randIdx (ordered size) = .ok mV := by
  rcases rearranges.exists_choices with ⟨list, chosen, reached⟩
  rcases exists_randIdx 1 size (Nat.add_comm 1 size) list chosen with ⟨randIdx, rfl⟩
  have ahead : Ahead size randIdx := fun i within =>
    (choices_iff 1 size (Nat.add_comm 1 size)).mp chosen i within.1 within.2
  refine ⟨randIdx, ahead, ?_⟩
  rw [exchangeCards_eq ahead.inDeck, indices, reached]

/-- The indices of `shuffle_pro` are all those that do not go back. -/
theorem ahead_shufflePro (size : Nat) (rand : Nat → Nat) :
    Ahead size fun i => shuffleProIdx size i (rand i) := by
  intro i within
  have less : rand i % (size - i + 1) < size - i + 1 := Nat.mod_lt _ (Nat.succ_pos _)
  have last := within.2
  simp only [shuffleProIdx]
  omega

theorem exists_rand (chosen : Ahead size randIdx) :
    ∃ rand : Nat → Nat, ∀ i ∈ Set.Icc 1 size, shuffleProIdx size i (rand i) = randIdx i := by
  refine ⟨fun i => randIdx i - i, fun i within => ?_⟩
  have range := chosen i within
  show i + (randIdx i - i) % (size - i + 1) = randIdx i
  rw [Nat.mod_eq_of_lt (by omega)]
  omega

/-! ## The check -/

theorem countCards_spec (places : List Nat) (cards : ∀ i ∈ places, i ∈ Set.Icc 1 size ∧
      0 ≤ mV i ∧ mV i < 55) (legal : Contents Nat) :
    ∃ counted, runAll (countCard size mV) legal places = .ok counted ∧
      (∀ card, legal card ≤ counted card) ∧ ∀ i ∈ places, 0 < counted (mV i) := by
  induction places generalizing legal with
  | nil => exact ⟨legal, rfl, fun _ => Nat.le_refl _, fun i member => by cases member⟩
  | cons first rest induction =>
      rcases List.forall_mem_cons.mp cards with ⟨⟨within, lower, upper⟩, others⟩
      have read := (deckSpan_covers size).load_eq mV first (by omega) (by exact_mod_cast within.2)
      have legalCovers : legalSpan.Covers 0 54 := Span.ofLength_covers (Int.le_refl 0) (by omega)
      have stepped : countCard size mV legal first =
          .ok (Function.update legal (mV first) (legal (mV first) + 1)) := by
        rw [countCard, read, Outcome.ok_bind, legalCovers.load_eq legal _ lower (by omega),
          Outcome.ok_bind, legalCovers.store_eq legal _ _ lower (by omega)]
      rcases induction others (Function.update legal (mV first) (legal (mV first) + 1)) with
        ⟨counted, ran, grows, found⟩
      refine ⟨counted, by rw [runAll, stepped, Outcome.ok_bind, ran], ?_, ?_⟩
      · intro card
        have more := grows card
        rw [Function.update_apply] at more
        split at more
        next isFirst =>
          rw [isFirst] at more ⊢
          omega
        next => exact more
      · intro i member
        rcases List.mem_cons.mp member with rfl | later
        · have more := grows (mV i)
          rw [Function.update_self] at more
          omega
        · exact found i later

theorem noneMissing_spec {legal : Contents Nat} (places : List Nat)
    (found : ∀ i ∈ places, i < 55 ∧ 0 < legal i) : noneMissing legal places = .ok true := by
  induction places with
  | nil => rfl
  | cons first rest induction =>
      rcases List.forall_mem_cons.mp found with ⟨⟨small, positive⟩, others⟩
      have legalCovers : legalSpan.Covers 0 54 := Span.ofLength_covers (Int.le_refl 0) (by omega)
      rw [noneMissing, legalCovers.load_eq legal first (by omega) (by omega), Outcome.ok_bind,
        if_neg (by omega)]
      exact induction others

theorem IsDeck.isLegal (deck : IsDeck buffSize mV) : isLegal buffSize mV = .ok true := by
  have cards : ∀ i ∈ indices buffSize, i ∈ Set.Icc 1 buffSize ∧ 0 ≤ mV i ∧ mV i < 55 := by
    intro i member
    have within := mem_indices.mp member
    have card : mV i ∈ Set.Icc (1 : Int) buffSize := deck.cards.mapsTo ⟨by omega, by omega⟩
    rw [buffSize, Set.mem_Icc] at card
    exact ⟨within, by omega, by omega⟩
  rcases countCards_spec (indices buffSize) cards fun _ => 0 with ⟨counted, ran, _, found⟩
  rw [Shuffle.isLegal, ran, Outcome.ok_bind]
  apply noneMissing_spec
  intro card member
  have range := mem_indices.mp member
  have isCard : (card : Int) ∈ Set.Icc (1 : Int) buffSize := ⟨by omega, by omega⟩
  rcases deck.cards.surjOn isCard with ⟨place, within, isPlace⟩
  have placeRange := Set.mem_Icc.mp within
  have counts := found place.toNat (mem_indices.mpr ⟨by omega, by omega⟩)
  rw [Int.toNat_of_nonneg (by omega), isPlace] at counts
  rw [buffSize] at range
  exact ⟨by omega, counts⟩

/-! ## Any number of calls -/

/-- Calls whose indices stay within the deck leave a deck. -/
theorem calls_spec {call : Contents Int → (Nat → Nat) → Outcome (Contents Int)}
    {idx : Nat → Nat → Nat}
    (isCall : ∀ mV rand, call mV rand = exchangeCards size (fun i => idx i (rand i)) mV)
    (calls : List (Nat → Nat)) (inDeck : ∀ rand ∈ calls, InDeck size fun i => idx i (rand i)) :
    ∃ after, runAll call (ordered size) calls = .ok after ∧ IsDeck size after := by
  have ran : ∃ after, runAll call (ordered size) calls = .ok after ∧
      Rearranges 1 size (ordered size) after := by
    have every : EveryStep call (fun _ rand => InDeck size fun i => idx i (rand i))
        (ordered size) calls := .of_mem (fun rand member _ => inDeck rand member) (ordered size)
    refine runAll_total (Rearranges 1 size (ordered size)) ?_ calls (ordered size)
      (.refl 1 size (ordered size)) every
    intro mV rand rearranges within
    rcases exchangeCards_rearranges within mV with ⟨after, returned, later⟩
    exact ⟨after, (isCall mV rand).trans returned, rearranges.trans later⟩
  rcases ran with ⟨after, returned, rearranges⟩
  exact ⟨after, returned, isDeck_of_rearranges rearranges⟩

/-- Whatever `rand` returns, calls of `shuffle_pro` use indices of cards and leave a deck that
passes the check. In a deck of any size each arrangement of the cards comes from one vector of
indices, and those that a call can use are the ones that do not go back. -/
theorem shufflePro_arranges :
    (∀ calls : List (Nat → Nat),
      (∀ rand ∈ calls, InDeck buffSize fun i => shuffleProIdx buffSize i (rand i)) ∧
      ∃ start mV, new buffSize = .ok start ∧
        runAll (shufflePro buffSize) start calls = .ok mV ∧ mV 0 = 0 ∧
        Set.BijOn mV (Set.Icc 1 buffSize) (Set.Icc 1 buffSize) ∧
        isLegal buffSize mV = .ok true) ∧
    ∀ size, ∃ start, new size = .ok start ∧
      (∀ randIdx, Ahead size randIdx ↔ ∃ rand : Nat → Nat,
        ∀ i ∈ Set.Icc 1 size, shuffleProIdx size i (rand i) = randIdx i) ∧
      (∀ first second, (∃ i ∈ Set.Icc 1 size,
          shuffleProIdx size i (first i) ≠ shuffleProIdx size i (second i)) →
        shufflePro size start first ≠ shufflePro size start second) ∧
      ∀ mV, Rearranges 1 size start mV → ∃ randIdx, Ahead size randIdx ∧ ∀ rand,
        shufflePro size start rand = .ok mV ↔
          ∀ i ∈ Set.Icc 1 size, shuffleProIdx size i (rand i) = randIdx i := by
  constructor
  · intro calls
    have inDeck : ∀ rand ∈ calls, InDeck buffSize fun i => shuffleProIdx buffSize i (rand i) :=
      fun rand _ => (ahead_shufflePro buffSize rand).inDeck
    rcases calls_spec (fun _ _ => rfl) calls inDeck with ⟨mV, returned, deck⟩
    exact ⟨inDeck, ordered buffSize, mV, new_eq buffSize, returned, deck.first, deck.cards,
      deck.isLegal⟩
  · intro size
    refine ⟨ordered size, new_eq size, ?_, ?_, ?_⟩
    · intro randIdx
      constructor
      · exact exists_rand
      · rintro ⟨rand, same⟩ i within
        rw [← same i within]
        exact ahead_shufflePro size rand i within
    · rintro first second ⟨i, within, different⟩ same
      exact different (eqOn_of_exchangeCards (ahead_shufflePro size first)
        (ahead_shufflePro size second) same within)
    · intro mV rearranges
      rcases exists_exchangeCards rearranges with ⟨randIdx, chosen, reached⟩
      refine ⟨randIdx, chosen, fun rand => ?_⟩
      constructor
      · intro returned
        exact eqOn_of_exchangeCards (ahead_shufflePro size rand) chosen
          (returned.trans reached.symm)
      · intro same
        rw [← reached]
        exact exchangeCards_congr same (ordered size)

/-! ## The other shuffle -/

theorem shuffleIdx_le_iff (value : Nat) : shuffleIdx buffSize value ≤ buffSize ↔
    value < 2147483610 := by
  simp only [shuffleIdx, buffSize, randMax]
  omega

/-- Calls of `shuffle` leave a deck, and use indices of cards only, as long as `rand` does not
return one of the greatest 38 numbers. -/
theorem shuffle_inDeck_iff (calls : List (Nat → Nat)) :
    ((∀ rand ∈ calls, InDeck buffSize fun i => shuffleIdx buffSize (rand i)) ↔
      ∀ rand ∈ calls, ∀ i ∈ Set.Icc 1 buffSize, rand i < 2147483610) ∧
    ((∃ start mV, new buffSize = .ok start ∧ runAll (shuffle buffSize) start calls = .ok mV ∧
        mV 0 = 0 ∧ Set.BijOn mV (Set.Icc 1 buffSize) (Set.Icc 1 buffSize)) ↔
      ∀ rand ∈ calls, ∀ i ∈ Set.Icc 1 buffSize, rand i < 2147483610) := by
  have small : (∀ rand ∈ calls, InDeck buffSize fun i => shuffleIdx buffSize (rand i)) ↔
      ∀ rand ∈ calls, ∀ i ∈ Set.Icc 1 buffSize, rand i < 2147483610 := by
    constructor
    · intro inDeck rand member i within
      exact (shuffleIdx_le_iff _).mp (inDeck rand member i within).2
    · intro below rand member i within
      exact ⟨Nat.le_add_right 1 _, (shuffleIdx_le_iff _).mpr (below rand member i within)⟩
  refine ⟨small, ?_⟩
  constructor
  · rintro ⟨start, mV, _, returned, _⟩ rand member i within
    rcases runAll_taken returned member with ⟨before, after, called⟩
    exact (shuffleIdx_le_iff _).mp (exchangeCards_within called within)
  · intro below
    rcases calls_spec (fun _ _ => rfl) calls (small.mpr below) with ⟨mV, returned, deck⟩
    exact ⟨ordered buffSize, mV, new_eq buffSize, returned, deck.first, deck.cards⟩

/-- The smallest such number makes the first pass exchange a card with what is behind them. -/
theorem shuffle_leaves_deck : 2147483610 ≤ randMax ∧ shuffleIdx buffSize 2147483610 = 55 ∧
    (new buffSize >>= fun mV => shuffle buffSize mV fun _ => 2147483610) =
      .error .outOfRange := by
  decide

end DataStructAlgorithm.Algorithm.Shuffle
