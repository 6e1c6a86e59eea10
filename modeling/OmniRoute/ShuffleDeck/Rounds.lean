import OmniRoute.ShuffleDeck.Deck

/-!
# Rounds of a shuffle deck

What the calls on a namespace have returned is a sequence of used-up decks and the part of the
current deck that has been dealt (`Dealing`), as long as all of them pass the same ids. When they do
not, an id that contains a comma can make two lists of ids one text, and the deck of one is dealt
for the other.

**Main result (`deck_fair_members`).** For fixed ids the returned sequence is cut into permutations
and repeats no id at once, and in every run in which each call meets a deck of its own ids every
returned id is one of those passed.
-/

namespace OmniRoute.ShuffleDecks

open List Option

variable {source : RandomSource} {s t : State} {c : Call}

/-! ## One call -/

/-- What a call on at least two ids does: it deals the next card, or a new cycle. -/
theorem getNextFromDeck_cases (source : RandomSource) (s : State) (hlen : 2 ≤ c.itemIds.length) :
    (∃ deck, s.decks.get c.ns = some deck ∧ deck.idsKey = idsKeyOf c.itemIds ∧
      ∃ h : deck.index < deck.order.length,
        getNextFromDeck source s c =
          ({ s with decks := s.decks.set c.ns { deck with index := deck.index + 1 } },
            deck.order[deck.index])) ∨
    ((∀ deck, s.decks.get c.ns = some deck → deck.idsKey = idsKeyOf c.itemIds →
        deck.order.length ≤ deck.index) ∧
      getNextFromDeck source s c =
        ({ s with
            decks := s.decks.set c.ns
              ⟨(deal source s.draws (s.decks.get c.ns) (idsKeyOf c.itemIds) c.itemIds).1, 1,
                idsKeyOf c.itemIds⟩
            draws := (deal source s.draws (s.decks.get c.ns) (idsKeyOf c.itemIds) c.itemIds).2 },
          (deal source s.draws (s.decks.get c.ns) (idsKeyOf c.itemIds) c.itemIds).1.head?.getD
            "")) := by
  obtain ⟨ns, itemIds⟩ := c
  match itemIds, hlen with
  | a :: b :: ids, _ =>
    unfold getNextFromDeck
    dsimp only
    cases hget : s.decks.get ns with
    | none => exact .inr ⟨nofun, rfl⟩
    | some deck =>
      by_cases hown : deck.idsKey = idsKeyOf (a :: b :: ids) ∧ deck.index < deck.order.length
      · refine .inl ⟨deck, rfl, hown.1, hown.2, ?_⟩
        rw [Option.filter_some, if_pos (decide_eq_true hown)]
        dsimp only
        rw [getElem?_eq_getElem hown.2]
        rfl
      · refine .inr ⟨fun deck' hdeck hkey => ?_, ?_⟩
        · cases hdeck
          exact not_lt.1 fun hlt => hown ⟨hkey, hlt⟩
        · rw [Option.filter_some, if_neg (by simpa using hown)]

theorem step_eq (source : RandomSource) (s : State) (c : Call) : step source s c =
    some { (getNextFromDeck source s c).1 with
      returned := s.returned ++ [(c, (getNextFromDeck source s c).2)] } := rfl

/-- A call leaves the decks of the other namespaces alone. -/
theorem get_getNextFromDeck_ne (source : RandomSource) (s : State) {ns : String}
    (h : ns ≠ c.ns) : (getNextFromDeck source s c).1.decks.get ns = s.decks.get ns := by
  obtain hlen | hlen := Nat.lt_or_ge c.itemIds.length 2
  · obtain ⟨cns, itemIds⟩ := c
    match itemIds, hlen with
    | [], _ => rfl
    | [_], _ => rfl
  · rcases getNextFromDeck_cases source s hlen with ⟨deck, _, _, _hlt, heq⟩ | ⟨_, heq⟩
    · rw [heq]
      exact OrdMap.get_set_ne _ h _
    · rw [heq]
      exact OrdMap.get_set_ne _ h _

theorem returnedOn_append (s : State) (decks : OrdMap String ShuffleDeck) (draws : ℕ)
    (p : Call × String) (ns : String) :
    State.returnedOn ⟨decks, draws, s.returned ++ [p]⟩ ns =
      s.returnedOn ns ++ if p.1.ns = ns then [p.2] else [] := by
  unfold State.returnedOn
  rw [filter_append, map_append]
  congr 1
  by_cases h : p.1.ns = ns
  · rw [if_pos h, filter_cons_of_pos (by simpa using h)]
    rfl
  · rw [if_neg h, filter_cons_of_neg (by simpa using h)]
    rfl

/-! ## Rounds -/

/-- The current deck of a namespace on which all calls pass the same ids. -/
structure Dealt (ids : List String) (ns : String) (s : State) (deck : ShuffleDeck) : Prop where
  get : s.decks.get ns = some deck
  idsKey : deck.idsKey = idsKeyOf ids
  order : deck.order.Perm ids
  index_pos : 0 < deck.index
  index_le : deck.index ≤ deck.order.length
  rounds : ∃ blocks : List (List String), (∀ block ∈ blocks, block.Perm ids) ∧
    s.returnedOn ns = blocks.flatten ++ deck.order.take deck.index
  alternates : (s.returnedOn ns).IsChain (· ≠ ·)

/-- No call on the namespace yet, or a deck that has been dealt from. -/
def Dealing (ids : List String) (ns : String) (s : State) : Prop :=
  (s.returnedOn ns = [] ∧ ∀ deck, s.decks.get ns = some deck → deck.idsKey ≠ idsKeyOf ids) ∨
    ∃ deck, Dealt ids ns s deck

variable {ids : List String} {ns : String}

/-- The last id returned is the last one dealt of the deck. -/
theorem Dealt.getLast? {deck : ShuffleDeck} (h : Dealt ids ns s deck) :
    (s.returnedOn ns).getLast? = deck.order[deck.index - 1]? := by
  obtain ⟨blocks, -, heq⟩ := h.rounds
  have hpos := h.index_pos
  have hle := h.index_le
  have hlen : (deck.order.take deck.index).length = deck.index := by
    rw [length_take]
    omega
  have hne : deck.order.take deck.index ≠ [] := by
    intro hnil
    rw [hnil] at hlen
    simp only [length_nil] at hlen
    omega
  rw [heq, getLast?_append_of_ne_nil _ hne, getLast?_eq_getElem?, hlen,
    getElem?_take_of_lt (by omega)]

theorem isChain_append_singleton {sequence : List String} {id : String}
    (h : sequence.IsChain (· ≠ ·)) (hlast : sequence.getLast? ≠ some id) :
    (sequence ++ [id]).IsChain (· ≠ ·) := by
  refine isChain_append.2 ⟨h, isChain_singleton _, fun x hx y hy => ?_⟩
  rw [head?_cons, Option.mem_some_iff] at hy
  rintro rfl
  exact hlast (hy ▸ hx)

/-- The next card of a deck. -/
theorem Dealt.next {deck : ShuffleDeck} (h : Dealt ids ns s deck) (hnodup : ids.Nodup)
    (hlt : deck.index < deck.order.length) (draws : ℕ) (hns : c.ns = ns) :
    Dealt ids ns ⟨s.decks.set ns { deck with index := deck.index + 1 }, draws,
      s.returned ++ [(c, deck.order[deck.index])]⟩ { deck with index := deck.index + 1 } where
  get := OrdMap.get_set_self _ _ _
  idsKey := h.idsKey
  order := h.order
  index_pos := Nat.succ_pos _
  index_le := hlt
  rounds := by
    obtain ⟨blocks, hblocks, heq⟩ := h.rounds
    refine ⟨blocks, hblocks, ?_⟩
    rw [returnedOn_append, if_pos hns, heq, append_assoc]
    congr 1
    exact (take_succ_eq_append_getElem hlt).symm
  alternates := by
    rw [returnedOn_append, if_pos hns]
    refine isChain_append_singleton h.alternates ?_
    have hpos := h.index_pos
    rw [h.getLast?, getElem?_eq_getElem (by omega)]
    intro heq
    have hsame := (h.order.nodup_iff.2 hnodup).getElem_inj_iff.1 (some.inj heq)
    omega

/-- The first card of a new cycle. -/
theorem Dealt.first {sequence order : List String} (hperm : order.Perm ids)
    (hids : 2 ≤ ids.length) {id : String} (hid : order.head? = some id)
    (hsequence : s.returnedOn ns = sequence)
    (hblocks : ∃ blocks : List (List String), (∀ block ∈ blocks, block.Perm ids) ∧
      sequence = blocks.flatten) (hchain : sequence.IsChain (· ≠ ·))
    (hlast : sequence.getLast? ≠ some id) (draws : ℕ) (hns : c.ns = ns) :
    Dealt ids ns ⟨s.decks.set ns ⟨order, 1, idsKeyOf ids⟩, draws, s.returned ++ [(c, id)]⟩
      ⟨order, 1, idsKeyOf ids⟩ where
  get := OrdMap.get_set_self _ _ _
  idsKey := rfl
  order := hperm
  index_pos := Nat.one_pos
  index_le := by
    have hlength := hperm.length_eq
    dsimp only
    omega
  rounds := by
    obtain ⟨blocks, hperms, heq⟩ := hblocks
    refine ⟨blocks, hperms, ?_⟩
    rw [returnedOn_append, if_pos hns, hsequence, heq, take_one, hid]
    rfl
  alternates := by
    rw [returnedOn_append, if_pos hns, hsequence]
    exact isChain_append_singleton hchain hlast

theorem Dealing.step (hnodup : ids.Nodup) (hids : 2 ≤ ids.length) (h : Dealing ids ns s)
    (hsame : c.ns = ns → c.itemIds = ids) (hstep : ShuffleDecks.step source s c = some t) :
    Dealing ids ns t := by
  rw [step_eq] at hstep
  cases hstep
  by_cases hns : c.ns = ns
  · have hitems := hsame hns
    have hlen : 2 ≤ c.itemIds.length := hitems ▸ hids
    rcases getNextFromDeck_cases source s hlen with ⟨deck, hget, hkey, hlt, heq⟩ | ⟨hused, heq⟩
    · rw [heq]
      rw [hns] at hget ⊢
      rw [hitems] at hkey
      rcases h with ⟨-, hfresh⟩ | ⟨deck', h⟩
      · exact absurd hkey (hfresh deck hget)
      · obtain rfl := some.inj (h.get.symm.trans hget)
        exact .inr ⟨_, h.next hnodup hlt s.draws hns⟩
    · have hperm := deal_perm source s.draws (s.decks.get c.ns) (idsKeyOf c.itemIds) c.itemIds
      have hhead := fun last => @head_deal_ne source s.draws (s.decks.get c.ns)
        (idsKeyOf c.itemIds) c.itemIds (hitems ▸ hnodup) hlen last
      rw [heq]
      generalize hdeal : deal source s.draws (s.decks.get c.ns) (idsKeyOf c.itemIds) c.itemIds =
        dealt at hperm hhead
      rw [hitems, hns] at hused hhead ⊢
      rw [hitems] at hperm
      obtain ⟨id, hid⟩ : ∃ id, dealt.1.head? = some id := by
        rw [← Option.isSome_iff_exists, isSome_head?]
        intro hnil
        have hlength := hperm.length_eq
        rw [hnil, length_nil] at hlength
        omega
      rw [hid, Option.getD_some]
      rcases h with ⟨hnone, -⟩ | ⟨deck, h⟩
      · exact .inr ⟨_, Dealt.first hperm hids hid hnone ⟨[], nofun, rfl⟩ isChain_nil
          nofun dealt.2 hns⟩
      · have hend : deck.index = deck.order.length :=
          h.index_le.antisymm (hused deck h.get h.idsKey)
        have hlast : (s.returnedOn ns).getLast? = deck.order.getLast? := by
          rw [h.getLast?, hend, getLast?_eq_getElem?]
        obtain ⟨blocks, hblocks, hrounds⟩ := h.rounds
        refine .inr ⟨_, Dealt.first hperm hids hid rfl ⟨blocks ++ [deck.order], fun block hmem => ?_,
          ?_⟩ h.alternates ?_ dealt.2 hns⟩
        · rcases mem_append.1 hmem with hmem | hmem
          · exact hblocks block hmem
          · rw [mem_singleton.1 hmem]
            exact h.order
        · rw [hrounds, hend, take_length, flatten_append, flatten_singleton]
        · rw [hlast]
          intro heq'
          refine hhead id ?_ hid
          unfold lastUsedId
          rw [h.get]
          dsimp only
          rw [if_pos h.idsKey, heq']
  · have hget := get_getNextFromDeck_ne source s (c := c) (Ne.symm hns)
    have hreturned := returnedOn_append s (getNextFromDeck source s c).1.decks
      (getNextFromDeck source s c).1.draws (c, (getNextFromDeck source s c).2) ns
    rw [if_neg hns, append_nil] at hreturned
    rcases h with ⟨hnone, hfresh⟩ | ⟨deck, h⟩
    · refine .inl ⟨hreturned.trans hnone, fun deck hdeck => hfresh deck ?_⟩
      rw [← hget]
      exact hdeck
    · refine .inr ⟨deck, hget.trans h.get, h.idsKey, h.order, h.index_pos, h.index_le, ?_, ?_⟩
      · rw [hreturned]
        exact h.rounds
      · rw [hreturned]
        exact h.alternates

theorem Dealing.exec (hnodup : ids.Nodup) (hids : 2 ≤ ids.length) {calls : List Call}
    (hsame : ∀ c ∈ calls, c.ns = ns → c.itemIds = ids) (h : Dealing ids ns s)
    (hrun : Trace.exec (ShuffleDecks.step source) s calls = some t) : Dealing ids ns t := by
  induction calls generalizing s with
  | nil =>
    cases hrun
    exact h
  | cons c calls ih =>
    obtain ⟨s', hstep, hrest⟩ := Trace.exec_cons.1 hrun
    exact ih (fun c' hc' => hsame c' (mem_cons_of_mem _ hc'))
      (h.step hnodup hids (hsame c mem_cons_self) hstep) hrest

theorem Dealing.fair (h : Dealing ids ns s) : Fair ids (s.returnedOn ns) := by
  rcases h with ⟨hnone, -⟩ | ⟨deck, h⟩
  · rw [hnone]
    exact ⟨⟨[], ids, 0, nofun, List.Perm.refl _, rfl⟩, isChain_nil⟩
  · obtain ⟨blocks, hblocks, heq⟩ := h.rounds
    exact ⟨⟨blocks, deck.order, deck.index, hblocks, h.order, heq⟩, h.alternates⟩

/-! ## Membership -/

theorem getNextFromDeck_mem (hown : MeetsOwnDeck s c) (hne : c.itemIds ≠ []) :
    (getNextFromDeck source s c).2 ∈ c.itemIds := by
  obtain hlen | hlen := Nat.lt_or_ge c.itemIds.length 2
  · obtain ⟨cns, itemIds⟩ := c
    match itemIds, hlen with
    | [], _ => exact absurd rfl hne
    | [id], _ => exact mem_cons_self
  · rcases getNextFromDeck_cases source s hlen with ⟨deck, hget, hkey, hlt, heq⟩ | ⟨-, heq⟩
    · rw [heq]
      exact (hown deck hget hkey hlt).mem_iff.1 (getElem_mem hlt)
    · have hperm := deal_perm source s.draws (s.decks.get c.ns) (idsKeyOf c.itemIds) c.itemIds
      rw [heq]
      cases hdealt : (deal source s.draws (s.decks.get c.ns) (idsKeyOf c.itemIds) c.itemIds).1 with
      | nil =>
        rw [hdealt] at hperm
        exact absurd hperm.nil_eq.symm hne
      | cons id order =>
        rw [hdealt] at hperm
        exact hperm.mem_iff.1 mem_cons_self

theorem step_returnsMembers (h : ReturnsMembers s) (hown : MeetsOwnDeck s c)
    (hstep : step source s c = some t) : ReturnsMembers t := by
  rw [step_eq] at hstep
  cases hstep
  intro p hp hne
  rcases mem_append.1 hp with hp | hp
  · exact h p hp hne
  · rw [mem_singleton.1 hp] at hne ⊢
    exact getNextFromDeck_mem hown hne

theorem deck_fair_members (source : RandomSource) {s₀ s : State} (hstart : s₀.returned = [])
    {calls : List Call} (hrun : Trace.exec (step source) s₀ calls = some s) :
    (∀ ns ids, ids.Nodup → 2 ≤ ids.length → (∀ c ∈ calls, c.ns = ns → c.itemIds = ids) →
      (∀ deck, s₀.decks.get ns = some deck → deck.idsKey ≠ idsKeyOf ids) →
      Fair ids (s.returnedOn ns)) ∧
    (Trace.Meets (step source) MeetsOwnDeck s₀ calls → ReturnsMembers s) := by
  constructor
  · intro ns ids hnodup hids hsame hfresh
    have hnone : s₀.returnedOn ns = [] := by
      rw [State.returnedOn, hstart]
      rfl
    exact (Dealing.exec hnodup hids hsame (.inl ⟨hnone, hfresh⟩) hrun).fair
  · intro hmeets
    refine Trace.exec_invariant_of_meets (fun s c t h hown hstep => step_returnsMembers h hown hstep)
      ?_ hmeets hrun
    intro p hp
    rw [hstart] at hp
    exact absurd hp not_mem_nil

/-- A source that always gives zero. -/
def zeroSource : RandomSource where
  randomInt _ _ := 0
  randomInt_lt _ _ h := Nat.zero_lt_of_lt h

/-- Three calls on two ids. -/
theorem deck_fair_members_three :
    Fair ["a", "b"] (((Trace.exec (step zeroSource) (start 0)
      [⟨"conn:openai", ["a", "b"]⟩, ⟨"conn:openai", ["a", "b"]⟩,
        ⟨"conn:openai", ["a", "b"]⟩]).getD (start 0)).returnedOn "conn:openai") :=
  (@deck_fair_members zeroSource (start 0) _ rfl [⟨"conn:openai", ["a", "b"]⟩,
    ⟨"conn:openai", ["a", "b"]⟩, ⟨"conn:openai", ["a", "b"]⟩] rfl).1 "conn:openai" ["a", "b"]
    (by decide) (by decide) (by simp) (by simp [start, OrdMap.empty, OrdMap.get, OrdMap.lookup])

/-- A deck of two ids, one with a comma, is dealt for two others. -/
theorem otherDeck_dealt :
    ((Trace.exec (step zeroSource) (start 0)
      [⟨"combo:fast", ["a,b", "c"]⟩, ⟨"combo:fast", ["a", "b,c"]⟩]).getD (start 0)).returned.map
        Prod.snd = ["c", "a,b"] ∧
    "a,b" ∉ ["a", "b,c"] := by
  decide +kernel

end OmniRoute.ShuffleDecks
