import NodeForest.Catalogue
import NodeForest.Proofs.ParentAccuracy

set_option autoImplicit false

/-! # The parent is the last adopter

In a run whose lists have no slots, a link tells exactly which owner has adopted the node last, as
long as that owner knows itself, lives and still holds the node. Releases by anybody else leave the
link alone. A list that has slots as well could cut a link too early: it looks for a node it
releases in one sort of its places only. -/

namespace NodeForest.Forest

/-- No list has slots. -/
def ListsSlotless (f : Forest) : Prop :=
  ∀ n, f.isList n → f.slots n = []

/-- The edit makes no list that has slots. -/
def MakesSlotlessLists (_ : Forest) (e : Edit) : Prop :=
  ∀ spec ∈ e.created?, spec.SlotlessIfList

instance (f : Forest) (e : Edit) : Decidable (MakesSlotlessLists f e) :=
  inferInstanceAs (Decidable (∀ spec ∈ e.created?, spec.SlotlessIfList))

/-- A link names the last adopter of its node, and an adopter that still holds the node and knows
    itself has the link. -/
structure FollowsHistory (f : Forest) (history : List Adoption) : Prop where
  adopter : ∀ n p, f.parent? n = some p → lastAdopter history n = some p
  link : ∀ n p, f.isLive n → f.self? p = some p → lastAdopter history n = some p →
    f.holds p n → f.parent? n = some p

variable {f g stored : Forest} {owner : NodeId} {released adopted : List NodeId}
  {history adoptions : List Adoption}

/-! ## Lists stay without slots -/

theorem listsSlotless_insert {spec : NodeSpec} (hspec : spec.SlotlessIfList)
    (hf : ListsSlotless f) : ListsSlotless (f.insert (Node.fresh spec)).2 := by
  intro n hlist
  by_cases hn : n = f.nodes.size
  · rw [isList, node?_insert, if_pos hn] at hlist
    rw [slots, node?_insert, if_pos hn]
    have hspeclist : spec.isList := by
      simp only [Node.fresh, Option.bind_some] at hlist
      split at hlist
      · assumption
      · cases hlist
    simp [Node.fresh, hspec hspeclist]
  · have hsame := sameContents_insert f (Node.fresh spec) hn
    rw [hsame.slots]
    exact hf n (hsame.isList ▸ hlist)

theorem Move.listsSlotless (m : Move NodeSpec.SlotlessIfList f adoptions g)
    (hf : ListsSlotless f) : ListsSlotless g := by
  cases m with
  | create spec hspec => exact listsSlotless_insert hspec hf
  | recount m change =>
    intro n hlist
    have hsame := sameContents_countCallers f m change n
    rw [hsame.slots]
    exact hf n (hsame.isList ▸ hlist)
  | rewire _ r _ =>
    intro n hlist
    rw [(sameContents_handOver ..).isList, r.isList] at hlist
    rw [(sameContents_handOver ..).slots]
    exact r.slotless n (hf n hlist)
  | free lost _ =>
    intro n hlist
    by_cases hn : n = lost
    · rw [isList, node?_free, if_pos hn] at hlist
      cases hlist
    · have hsame := sameContents_free f hn
      rw [hsame.slots]
      exact hf n (hsame.isList ▸ hlist)

/-! ## Links follow the history -/

theorem followsHistory_insert (hheld : HeldAlive f) (hf : FollowsHistory f history)
    (spec : NodeSpec) : FollowsHistory (f.insert (Node.fresh spec)).2 history := by
  refine ⟨fun n p h => hf.adopter n p (by rwa [parent?_insert_fresh] at h), ?_⟩
  intro n p _ hself hlast hholds
  obtain ⟨hp, hholds⟩ := holds_of_holds_insert_fresh hholds
  rw [(sameContents_insert f _ hp).self?] at hself
  rw [parent?_insert_fresh]
  exact hf.link n p (hheld p n hholds) hself hlast hholds

theorem followsHistory_countCallers (hf : FollowsHistory f history) (m : NodeId)
    (change : Nat → Nat) : FollowsHistory (f.countCallers m change) history := by
  refine ⟨fun n p h => hf.adopter n p (by rwa [parent?_countCallers] at h), ?_⟩
  intro n p hlive hself hlast hholds
  rw [(sameContents_countCallers f m change n).isLive] at hlive
  have hsame := sameContents_countCallers f m change p
  rw [hsame.self?] at hself
  rw [hsame.holds] at hholds
  rw [parent?_countCallers]
  exact hf.link n p hlive hself hlast hholds

/-- What is adopted gets the link to its last adopter. What is not keeps its link unless `owner`
    has given it up altogether. -/
theorem followsHistory_handOver (r : Rewiring f stored owner released adopted)
    (source? : Option NodeId) (hslots : f.isList owner → f.slots owner = [])
    (hf : FollowsHistory f history) :
    FollowsHistory (stored.handOver owner released adopted)
      (history ++ adopted.map fun n => ⟨owner, n, source?⟩) := by
  have hlast : ∀ n ∈ adopted,
      lastAdopter (history ++ adopted.map fun n => ⟨owner, n, source?⟩) n = some owner :=
    fun n hn => lastAdopter_append_of_mem hn history owner source?
  have hold : ∀ n ∉ adopted,
      lastAdopter (history ++ adopted.map fun n => ⟨owner, n, source?⟩) n
        = lastAdopter history n :=
    fun n hn => lastAdopter_append_of_not_mem (mt mem_map_child.1 hn) history
  constructor
  · intro n p h
    by_cases hmem : n ∈ adopted
    · have hn := isLive_of_parent? h
      rw [r.isLive_handOver] at hn
      rw [r.parent?_handOver_of_mem hn hmem] at h
      rw [hlast n hmem, self?_eq_some h]
    · rw [r.parent?_handOver_of_not_mem hmem] at h
      rw [hold n hmem]
      split at h
      · cases h
      · exact hf.adopter n p h
  · intro n p hn hp hadopter hholds
    rw [r.isLive_handOver] at hn
    rw [r.self?_handOver] at hp
    rw [holds_handOver] at hholds
    by_cases hmem : n ∈ adopted
    · obtain rfl := Option.some.inj ((hlast n hmem).symm.trans hadopter)
      rw [r.parent?_handOver_of_mem hn hmem, hp]
    · rw [hold n hmem] at hadopter
      -- Nobody holds more than before but `owner`, and it gains only what it adopts.
      have hbefore : f.holds p n := by
        by_cases howner : p = owner
        · subst howner
          exact (r.gained n hholds).resolve_right hmem
        · exact r.othersGained p howner n hholds
      have hparent := hf.link n p hn hp hadopter hbefore
      -- Only `owner` itself could cut the link, and it cuts no link to a node it holds still.
      have hkept : ¬ (n ∈ released ∧ f.parent? n = f.self? owner) := by
        rintro ⟨hreleased, hcut⟩
        rw [hparent] at hcut
        obtain rfl := self?_eq_some hcut.symm
        exact r.gone hslots n hreleased hholds
      rw [r.parent?_handOver_of_not_mem hmem, if_neg hkept, hparent]

theorem followsHistory_free (hf : FollowsHistory f history) (lost : NodeId) :
    FollowsHistory (f.free lost) history := by
  refine ⟨fun n p h => hf.adopter n p (parent?_free.1 h).1, ?_⟩
  intro n p hlive hself hlast hholds
  obtain ⟨hp, hholds⟩ := holds_free_iff.1 hholds
  have hn := ne_of_isLive_free hlive
  rw [(sameContents_free f hn).isLive] at hlive
  rw [(sameContents_free f hp).self?] at hself
  exact parent?_free.2 ⟨hf.link n p hlive hself hlast hholds, hn, hp⟩

theorem Move.followsHistory (m : Move NodeSpec.SlotlessIfList f adoptions g)
    (hheld : HeldAlive f) (hlists : ListsSlotless f) (hf : FollowsHistory f history) :
    FollowsHistory g (history ++ adoptions) := by
  cases m with
  | create spec _ => exact (List.append_nil history).symm ▸ followsHistory_insert hheld hf spec
  | recount n change =>
    exact (List.append_nil history).symm ▸ followsHistory_countCallers hf n change
  | rewire source? r _ => exact followsHistory_handOver r source? (hlists _) hf
  | free n _ => exact (List.append_nil history).symm ▸ followsHistory_free hf n

theorem Moves.followsHistory (m : Moves NodeSpec.SlotlessIfList f adoptions g)
    (hheld : HeldAlive f) (hlists : ListsSlotless f) (hf : FollowsHistory f history) :
    FollowsHistory g (history ++ adoptions) := by
  induction m with
  | refl => rwa [List.append_nil]
  | step before last ih =>
    rw [← List.append_assoc]
    exact last.followsHistory (before.preserve Move.heldAlive hheld)
      (before.preserve Move.listsSlotless hlists) ih

/-! ## Runs -/

theorem Run.listsSlotless (hf : Run MakesSlotlessLists f history) : ListsSlotless f :=
  hf.invariant (fun n h => absurd (isLive_of_isList h) (not_isLive_empty n)) Move.listsSlotless
    fun _ _ he => he

theorem Run.followsHistory (hf : Run MakesSlotlessLists f history) :
    FollowsHistory f history := by
  induction hf with
  | start =>
    constructor
    · intro n p h
      exact absurd (isLive_of_parent? h) (not_isLive_empty n)
    · intro n p h
      exact absurd h (not_isLive_empty n)
  | edit e hrun hspec ih =>
    exact (moves_run _ hspec).followsHistory hrun.reachable.heldAlive hrun.listsSlotless ih

/-- A parent that holds its node after an edit is still its parent, if the edit has not adopted the
    node. -/
theorem Run.parent?_run_of_holds (hf : Run MakesSlotlessLists f history) {e : Edit} {n p : NodeId}
    (he : MakesSlotlessLists f e) (hlive : (f.run e).forest.isLive n)
    (hnone : ∀ a ∈ f.adoptions e, a.child ≠ n) (h : f.parent? n = some p)
    (hholds : (f.run e).forest.holds p n) : (f.run e).forest.parent? n = some p := by
  have hself := (hf.reachable.linksAccurate n p h).1
  -- Whoever holds `n` afterwards is alive, and so the same node as before.
  have hsurvives := (moves_run f he).survivor (lt_size_of_isLive (isLive_of_self? hself))
    (isLive_of_holds hholds)
  have hnot : n ∉ (f.adoptions e).map (·.child) := by
    intro hmem
    obtain ⟨a, ha, hchild⟩ := List.mem_map.1 hmem
    exact hnone a ha hchild
  have hlast : lastAdopter (history ++ f.adoptions e) n = some p := by
    rw [lastAdopter_append_of_not_mem hnot]
    exact hf.followsHistory.adopter n p h
  exact (Run.edit e hf he).followsHistory.link n p hlive (hsurvives.2.trans hself) hlast hholds

/-- **The parent is the last adopter that still holds the node.** So an edit that does not adopt a
    node leaves it with its parent for as long as the parent holds it in some place, whoever else
    gives it up. -/
theorem Run.parent?_eq_some_iff (hf : Run MakesSlotlessLists f history) {n : NodeId}
    (hn : f.isLive n) :
    (∀ p, f.parent? n = some p ↔
        f.isLive p ∧ f.self? p = some p ∧ lastAdopter history n = some p ∧ f.holds p n)
      ∧ ∀ e, MakesSlotlessLists f e → (f.run e).forest.isLive n →
        (∀ a ∈ f.adoptions e, a.child ≠ n) → ∀ p, f.parent? n = some p →
          ((f.run e).forest.parent? n = some p ↔ (f.run e).forest.holds p n) := by
  constructor
  · intro p
    constructor
    · intro h
      obtain ⟨hself, hholds⟩ := hf.reachable.linksAccurate n p h
      exact ⟨isLive_of_self? hself, hself, hf.followsHistory.adopter n p h, hholds⟩
    · rintro ⟨-, hself, hlast, hholds⟩
      exact hf.followsHistory.link n p hn hself hlast hholds
  · intro e he hlive hnone p h
    constructor
    · intro hafter
      exact ((Run.edit e hf he).reachable.linksAccurate n p hafter).2
    · exact hf.parent?_run_of_holds he hlive hnone h

/-- Two blocks and an identifier: the first block holds the identifier twice, the second adopts it
    later and holds it twice too. -/
def sharedIdentifier : List Edit :=
  let block := Catalogue.spec Catalogue.block "" true true
  [.create block, .create block, .create (Catalogue.spec Catalogue.identifier "x" false true),
    .push 0 (some 2), .push 0 (some 2), .push 1 (some 2), .push 1 (some 2), .removeItem 0 2]

theorem Run.parent?_eq_some_iff_sharedIdentifier :
    lastAdopter (empty.historyOf sharedIdentifier) 2 = some 1
      ∧ ((empty.runAll sharedIdentifier).run (.removeItem 0 2)).forest.parent? 2 = some 1
      ∧ ((empty.runAll sharedIdentifier).run (.removeItem 1 2)).forest.parent? 2 = some 1 := by
  have hrun : Run MakesSlotlessLists (empty.runAll sharedIdentifier)
      ([] ++ empty.historyOf sharedIdentifier) := Run.start.runAll (by decide +kernel)
  have hlaw := Run.parent?_eq_some_iff hrun (n := 2) (by decide +kernel)
  have hparent : (empty.runAll sharedIdentifier).parent? 2 = some 1 := by decide +kernel
  refine ⟨((hlaw.1 1).1 hparent).2.2.1, ?_, ?_⟩
  · exact (hlaw.2 (.removeItem 0 2) (by decide) (by decide +kernel) (by decide +kernel) 1
      hparent).2 (by decide +kernel)
  · exact (hlaw.2 (.removeItem 1 2) (by decide) (by decide +kernel) (by decide +kernel) 1
      hparent).2 (by decide +kernel)

end NodeForest.Forest
