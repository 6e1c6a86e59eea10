import OmniRoute.AccountSemaphore.Admission
import OmniRoute.Lib.Trace

/-!
# Shuffle decks

`src/shared/utils/shuffleDeck.ts`: a deck for each namespace, dealt from a Fisher-Yates shuffle of
the ids and dealt again when it is used up or the ids have changed, which a deck tells by the text
of its sorted ids.

`getNextFromDeck` takes a mutex of the namespace, and what it does with it does not wait for
anything, so a call of either version is one step. The `k`-th number the random source gives is a
parameter.
-/

namespace OmniRoute.ShuffleDecks

structure ShuffleDeck where
  order : List String
  index : ℕ
  idsKey : String

/-- The numbers of `randomInt`, by how many were drawn before. -/
structure RandomSource where
  randomInt : ℕ → ℕ → ℕ
  randomInt_lt : ∀ k max, 1 < max → randomInt k max < max

def RandomSource.secureRandomInt (source : RandomSource) (k maxExclusive : ℕ) : ℕ :=
  if maxExclusive ≤ 1 then 0 else source.randomInt k maxExclusive

def swap (l : List String) (i j : ℕ) : List String :=
  match l[i]?, l[j]? with
  | some a, some b => (l.set i b).set j a
  | _, _ => l

/-- The loop of `fisherYatesShuffle` from `i` down, and how many numbers have been drawn. -/
def shuffleFrom (source : RandomSource) : ℕ → ℕ → List String → List String × ℕ
  | 0, draws, result => (result, draws)
  | i + 1, draws, result =>
    shuffleFrom source i (draws + 1)
      (swap result (i + 1) (source.secureRandomInt draws (i + 2)))

def fisherYatesShuffle (source : RandomSource) (draws : ℕ) (arr : List String) :
    List String × ℕ :=
  shuffleFrom source (arr.length - 1) draws arr

/-- `[...itemIds].sort().join(",")` -/
def idsKeyOf (itemIds : List String) : String :=
  String.intercalate "," (itemIds.insertionSort sortsBefore)

/-- The last id of the cycle before, which is not to be the first of the next one. -/
def lastUsedId (existing : Option ShuffleDeck) (idsKey : String) : Option String :=
  match existing with
  | none => none
  | some deck => if deck.idsKey = idsKey then deck.order.getLast? else none

/-- The order of a new cycle. -/
def deal (source : RandomSource) (draws : ℕ) (existing : Option ShuffleDeck) (idsKey : String)
    (itemIds : List String) : List String × ℕ :=
  let (newOrder, draws) := fisherYatesShuffle source draws itemIds
  if lastUsedId existing idsKey ≠ none ∧ newOrder.head? = lastUsedId existing idsKey ∧
      1 < newOrder.length then
    (swap newOrder 0 (1 + source.secureRandomInt draws (newOrder.length - 1)), draws + 1)
  else (newOrder, draws)

structure Call where
  ns : String
  itemIds : List String

/-- The decks, how many numbers have been drawn, and the calls so far with what they returned. -/
structure State where
  decks : OrdMap String ShuffleDeck
  draws : ℕ
  returned : List (Call × String)

/-- A call of `getNextFromDeckSync`, or of `getNextFromDeck` once it holds the mutex. -/
def getNextFromDeck (source : RandomSource) (s : State) (c : Call) : State × String :=
  match c.itemIds with
  | [] => (s, "")
  | [id] => (s, id)
  | _ :: _ :: _ =>
    let idsKey := idsKeyOf c.itemIds
    let existing := s.decks.get c.ns
    match existing.filter fun deck => deck.idsKey = idsKey ∧ deck.index < deck.order.length with
    | some deck =>
      ({ s with decks := s.decks.set c.ns { deck with index := deck.index + 1 } },
        (deck.order[deck.index]?).getD "")
    | none =>
      let (newOrder, draws) := deal source s.draws existing idsKey c.itemIds
      ({ s with decks := s.decks.set c.ns ⟨newOrder, 1, idsKey⟩, draws },
        newOrder.head?.getD "")

def step (source : RandomSource) (s : State) (c : Call) : Option State :=
  let (t, id) := getNextFromDeck source s c
  some { t with returned := s.returned ++ [(c, id)] }

def start (draws : ℕ) : State := ⟨.empty, draws, []⟩

/-- What the calls on a namespace have returned. -/
def State.returnedOn (s : State) (ns : String) : List String :=
  (s.returned.filter fun p => p.1.ns = ns).map Prod.snd

/-- The sequence is cut into permutations of the ids, up to a last one that is not finished, and no
id follows itself. -/
structure Fair (ids sequence : List String) : Prop where
  rounds : ∃ (blocks : List (List String)) (order : List String) (k : ℕ),
    (∀ block ∈ blocks, block.Perm ids) ∧ order.Perm ids ∧
      sequence = blocks.flatten ++ order.take k
  alternates : sequence.IsChain (· ≠ ·)

/-- Every id returned is one of those passed to the call. -/
def ReturnsMembers (s : State) : Prop :=
  ∀ p ∈ s.returned, p.1.itemIds ≠ [] → p.2 ∈ p.1.itemIds

/-- An unfinished deck that passes for one of the ids is a deck of them. -/
def MeetsOwnDeck (s : State) (c : Call) : Prop :=
  ∀ deck, s.decks.get c.ns = some deck → deck.idsKey = idsKeyOf c.itemIds →
    deck.index < deck.order.length → deck.order.Perm c.itemIds

/-! ## Shuffling -/

theorem swap_perm (l : List String) (i j : ℕ) : (swap l i j).Perm l := by
  unfold swap
  cases hi : l[i]? with
  | none => exact List.Perm.refl _
  | some a =>
    cases hj : l[j]? with
    | none => exact List.Perm.refl _
    | some b =>
      obtain ⟨hi', rfl⟩ := List.getElem?_eq_some_iff.1 hi
      obtain ⟨hj', rfl⟩ := List.getElem?_eq_some_iff.1 hj
      exact List.set_set_perm hi' hj'

variable (source : RandomSource)

theorem shuffleFrom_perm (i draws : ℕ) (l : List String) :
    (shuffleFrom source i draws l).1.Perm l := by
  induction i generalizing draws l with
  | zero => exact List.Perm.refl _
  | succ i ih => exact (ih _ _).trans (swap_perm _ _ _)

theorem deal_perm (draws : ℕ) (existing : Option ShuffleDeck)
    (idsKey : String) (itemIds : List String) :
    (deal source draws existing idsKey itemIds).1.Perm itemIds := by
  unfold deal
  dsimp only
  split
  · exact (swap_perm _ _ _).trans (shuffleFrom_perm _ _ _ _)
  · exact shuffleFrom_perm _ _ _ _

/-- A swap of the first with another of distinct ids changes the first. -/
theorem head_swap_ne {l : List String} {j : ℕ} (hnodup : l.Nodup) (hj : 0 < j)
    (hlen : j < l.length) : (swap l 0 j).head? ≠ l.head? := by
  match l with
  | [] => simp at hlen
  | a :: as =>
    obtain ⟨k, rfl⟩ := Nat.exists_eq_succ_of_ne_zero hj.ne'
    have hk : k < as.length := by simpa using hlen
    have hget : (a :: as)[k + 1]? = some as[k] := by simp [hk]
    unfold swap
    rw [hget]
    simp only [List.getElem?_cons_zero, List.set_cons_zero, List.set_cons_succ, List.head?_cons]
    intro heq
    have hmem : a ∈ as := Option.some.inj heq ▸ List.getElem_mem hk
    exact (List.nodup_cons.1 hnodup).1 hmem

/-- A new cycle does not begin with the last id of the one before. -/
theorem head_deal_ne (draws : ℕ) {existing : Option ShuffleDeck}
    {idsKey : String} {itemIds : List String} (hnodup : itemIds.Nodup)
    (hlen : 2 ≤ itemIds.length) {last : String} (hlast : lastUsedId existing idsKey = some last) :
    (deal source draws existing idsKey itemIds).1.head? ≠ some last := by
  have hperm := shuffleFrom_perm source (itemIds.length - 1) draws itemIds
  unfold deal fisherYatesShuffle
  dsimp only
  rw [hlast]
  generalize shuffleFrom source (itemIds.length - 1) draws itemIds = dealt at hperm
  by_cases hhead : dealt.1.head? = some last
  · have hlength : dealt.1.length = itemIds.length := hperm.length_eq
    have hbound : source.secureRandomInt dealt.2 (dealt.1.length - 1) < dealt.1.length - 1 := by
      unfold RandomSource.secureRandomInt
      by_cases hone : dealt.1.length - 1 ≤ 1
      · rw [if_pos hone]
        omega
      · rw [if_neg hone]
        exact source.randomInt_lt _ _ (by omega)
    rw [if_pos ⟨nofun, hhead, by omega⟩]
    have hswap := head_swap_ne (j := 1 + source.secureRandomInt dealt.2 (dealt.1.length - 1))
      (hperm.nodup_iff.2 hnodup) (by omega) (by omega)
    rw [hhead] at hswap
    exact hswap
  · rw [if_neg fun h => hhead h.2.1]
    exact hhead

end OmniRoute.ShuffleDecks
