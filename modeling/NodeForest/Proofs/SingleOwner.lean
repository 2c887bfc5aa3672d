import NodeForest.Catalogue
import NodeForest.Proofs.LastAdopter

set_option autoImplicit false

/-! # Single ownership

A caller keeps a tree if it detaches a node before it puts the node in another place. What a splice
moves needs no such care: its source is drained, so the nodes pass from one owner to another. In a
run of a caller that keeps a tree, holding a node and being its parent are the same. -/

namespace NodeForest.Forest

/-- No other node than `owner` holds `n`. -/
def HeldOnlyBy (f : Forest) (owner n : NodeId) : Prop :=
  ∀ p, f.holds p n → p = owner

instance (f : Forest) (owner n : NodeId) : Decidable (f.HeldOnlyBy owner n) :=
  decidable_of_iff (∀ p < f.nodes.size, f.holds p n → p = owner)
    ⟨fun h p hp => h p (lt_size_of_isLive (isLive_of_holds hp)) hp, fun h p _ => h p⟩

/-- The edit makes nodes that know themselves, and lists without slots. What the caller itself puts
    in a place is held by nobody else than the owner of the place. -/
def KeepsTree (f : Forest) (e : Edit) : Prop :=
  (∀ spec ∈ e.created?, spec.isAnchored ∧ spec.SlotlessIfList)
    ∧ ∀ a ∈ f.adoptions e, a.source? = none → f.HeldOnlyBy a.owner a.child

instance (f : Forest) (e : Edit) : Decidable (KeepsTree f e) :=
  inferInstanceAs (Decidable ((∀ spec ∈ e.created?, spec.isAnchored ∧ spec.SlotlessIfList)
    ∧ ∀ a ∈ f.adoptions e, a.source? = none → f.HeldOnlyBy a.owner a.child))

variable {f g : Forest} {adoptions history : List Adoption}

/-! ## Nodes that know themselves -/

/-- Every node knows itself. -/
def AllAnchored (f : Forest) : Prop :=
  ∀ n, f.isLive n → f.self? n = some n

theorem self?_insert_fresh {spec : NodeSpec} (h : spec.isAnchored) :
    (f.insert (Node.fresh spec)).2.self? f.nodes.size = some f.nodes.size := by
  rw [self?, node?_insert, if_pos rfl]
  simp [Node.fresh, h]

theorem Move.allAnchored (m : Move (fun spec => spec.isAnchored) f adoptions g)
    (hf : AllAnchored f) : AllAnchored g := by
  intro n hlive
  by_cases hn : n < f.nodes.size
  · obtain ⟨hbefore, hself⟩ := m.survivor hn hlive
    exact hself.trans (hf n hbefore)
  · have hlt := lt_size_of_isLive hlive
    cases m with
    | create spec hspec =>
      rw [insert, Array.size_push] at hlt
      have hnew : n = f.nodes.size := Nat.le_antisymm (Nat.lt_succ_iff.1 hlt) (Nat.not_lt.1 hn)
      exact hnew ▸ self?_insert_fresh hspec
    | recount _ _ => exact absurd (size_modify .. ▸ hlt) hn
    | rewire _ r _ => exact absurd (r.size ▸ size_handOver .. ▸ hlt) hn
    | free _ _ => exact absurd (size_free .. ▸ hlt) hn

theorem Run.allAnchored (hf : Run KeepsTree f history) : AllAnchored f :=
  hf.invariant (fun n h => absurd h (not_isLive_empty n)) Move.allAnchored
    fun _ _ he spec h => (he.1 spec h).1

theorem Run.makesSlotlessLists (hf : Run KeepsTree f history) :
    Run MakesSlotlessLists f history :=
  hf.mono fun _ _ he spec h => (he.1 spec h).2

/-! ## What one edit adopts -/

theorem adoptions_eq {e : Edit} {answer : Answer} (hok : (f.perform e).result = .ok answer) :
    f.adoptions e = f.adoptionsOf e answer := by
  unfold adoptions
  rw [hok]

theorem AsksToReplace.adoptions_eq {e : Edit} {owner old new : NodeId} {r : Replacement}
    (hask : f.AsksToReplace e owner old new) (hok : (f.perform e).result = .ok (.replaced r)) :
    f.adoptions e = f.replacementAdoptions owner new r := by
  rw [Forest.adoptions_eq hok]
  rcases hask with rfl | ⟨rfl, hparent⟩
  · rfl
  · rw [adoptionsOf, hparent]
    rfl

/-- One owner adopts nodes that the caller names, or the edit splices. -/
theorem adoptions_cases (f : Forest) (e : Edit) :
    (∃ (owner : NodeId) (nodes : List NodeId),
        f.adoptions e = nodes.map fun n => ⟨owner, n, none⟩)
      ∨ ∃ owner old new count, f.AsksToReplace e owner old new
        ∧ (f.perform e).result = .ok (.replaced (.spliced count)) := by
  cases hresult : (f.perform e).result with
  | error _ => exact Or.inl ⟨0, [], by rw [adoptions, hresult]; rfl⟩
  | ok answer =>
    rw [adoptions_eq hresult]
    cases e with
    | gather _ nodes => exact Or.inl ⟨f.nodes.size, nodes, rfl⟩
    | fillSlot owner _ value => exact Or.inl ⟨owner, value.toList, rfl⟩
    | setChild owner _ value => exact Or.inl ⟨owner, value.toList, rfl⟩
    | push list child => exact Or.inl ⟨list, child.toList, rfl⟩
    | replaceChild owner old new =>
      cases answer with
      | replaced r =>
        cases r with
        | single n => exact Or.inl ⟨owner, [n], rfl⟩
        | spliced count => exact Or.inr ⟨owner, old, new, count, Or.inl rfl, rfl⟩
      | _ => exact Or.inl ⟨owner, [], rfl⟩
    | replace n new =>
      cases answer with
      | replaced r =>
        cases hparent : f.parent? n with
        | none => exact Or.inl ⟨n, [], by rw [adoptionsOf, hparent]; rfl⟩
        | some owner =>
          cases r with
          | single m => exact Or.inl ⟨owner, [m], by rw [adoptionsOf, hparent]; rfl⟩
          | spliced count =>
            exact Or.inr ⟨owner, n, new, count, Or.inr ⟨rfl, hparent⟩, rfl⟩
      | _ => exact Or.inl ⟨n, [], rfl⟩
    | _ => exact Or.inl ⟨0, [], rfl⟩

/-! ## Splices -/

/-- A tree is kept by every splice, whoever holds what it moves. -/
theorem AsksToReplace.keepsTree {e : Edit} {owner old new : NodeId} {count : Nat}
    (hask : f.AsksToReplace e owner old new)
    (hok : (f.perform e).result = .ok (.replaced (.spliced count))) : KeepsTree f e := by
  constructor
  · intro spec hspec
    rcases hask with rfl | ⟨rfl, -⟩ <;> cases hspec
  · intro a ha hnone
    rw [hask.adoptions_eq hok] at ha
    obtain ⟨n, -, rfl⟩ := List.mem_map.1 ha
    cases hnone

/-- A splice leaves its source empty-handed. -/
theorem AsksToReplace.not_holds_source {e : Edit} {owner old new : NodeId} {count : Nat}
    (hask : f.AsksToReplace e owner old new)
    (hok : (f.perform e).result = .ok (.replaced (.spliced count))) (hlists : ListsSlotless f)
    (n : NodeId) : ¬ (f.run e).forest.holds new n := by
  intro h
  obtain ⟨-, r, hanswer, hr⟩ := hask.replaced hok
  cases hanswer
  have m : Moves (fun _ => True) (f.perform e).forest [] (f.run e).forest := moves_reclaim _
  rcases m.origin h with h | ⟨_, ha, -⟩
  · cases hr with
    | spliced hsplices _ hslots hitems =>
      rw [holds_iff, hslots, hitems, hlists new hsplices.2.1] at h
      rcases h with h | h <;> cases h
  · cases ha

theorem AsksToReplace.holds_owner {e : Edit} {owner old new : NodeId} {count : Nat}
    (hask : f.AsksToReplace e owner old new)
    (hok : (f.perform e).result = .ok (.replaced (.spliced count)))
    (hlive : (f.run e).forest.isLive owner) {n : NodeId} (hn : some n ∈ f.items new) :
    (f.run e).forest.holds owner n := by
  obtain ⟨-, r, hanswer, hr⟩ := hask.replaced hok
  cases hanswer
  cases hr with
  | spliced _ hg _ _ => exact holds_reclaim (hg.taken (mem_filterMap_id.2 hn)) hlive

/-! ## Holding and the history -/

/-- Nobody but the last adopter of a node holds it. -/
def HeldByLastAdopter (f : Forest) (history : List Adoption) : Prop :=
  ∀ p n, f.holds p n → lastAdopter history n = some p

/-- It is enough that what is adopted has no holders left beside its new owner. -/
theorem Moves.heldByLastAdopter {allowed : NodeSpec → Prop} {owner : NodeId}
    {source? : Option NodeId} {nodes : List NodeId}
    (m : Moves allowed f (nodes.map fun n => ⟨owner, n, source?⟩) g)
    (hothers : ∀ n ∈ nodes, ∀ p, f.holds p n → g.holds p n → p = owner)
    (hf : HeldByLastAdopter f history) :
    HeldByLastAdopter g (history ++ nodes.map fun n => ⟨owner, n, source?⟩) := by
  intro p n h
  by_cases hn : n ∈ nodes
  · rw [lastAdopter_append_of_mem hn]
    rcases m.origin h with hbefore | ⟨a, ha, rfl, -⟩
    · rw [hothers n hn p hbefore h]
    · obtain ⟨_, -, rfl⟩ := List.mem_map.1 ha
      rfl
  · rw [lastAdopter_append_of_not_mem (mt mem_map_child.1 hn)]
    rcases m.origin h with hbefore | ⟨a, ha, -, rfl⟩
    · exact hf p n hbefore
    · exact absurd (mem_map_child.1 (List.mem_map.2 ⟨a, ha, rfl⟩)) hn

theorem heldByLastAdopter_run {e : Edit} (he : KeepsTree f e) (hlists : ListsSlotless f)
    (hf : HeldByLastAdopter f history) :
    HeldByLastAdopter (f.run e).forest (history ++ f.adoptions e) := by
  have m := moves_run_any f e
  rcases adoptions_cases f e with ⟨owner, nodes, hadoptions⟩ | ⟨owner, old, new, count, hask, hok⟩
  · have hkept := he.2
    rw [hadoptions] at m hkept ⊢
    refine m.heldByLastAdopter ?_ hf
    intro n hn p hp _
    exact hkept _ (List.mem_map.2 ⟨n, hn, rfl⟩) rfl p hp
  · rw [hask.adoptions_eq hok] at m ⊢
    refine m.heldByLastAdopter ?_ hf
    intro n hn p hp hafter
    -- Only the source held `n`, and it holds nothing any more.
    have hsource : f.holds new n := holds_iff.2 (Or.inr (mem_filterMap_id.1 hn))
    obtain rfl := Option.some.inj ((hf p n hp).symm.trans (hf new n hsource))
    exact absurd hafter (hask.not_holds_source hok hlists n)

theorem Run.heldByLastAdopter (hf : Run KeepsTree f history) : HeldByLastAdopter f history := by
  induction hf with
  | start =>
    intro p n h
    exact absurd (isLive_of_holds h) (not_isLive_empty p)
  | edit e hrun he ih =>
    exact heldByLastAdopter_run he hrun.makesSlotlessLists.listsSlotless ih

theorem Run.parent?_of_holds (hf : Run KeepsTree f history) {p n : NodeId} (h : f.holds p n) :
    f.parent? n = some p :=
  hf.makesSlotlessLists.followsHistory.link n p (hf.reachable.heldAlive p n h)
    (hf.allAnchored p (isLive_of_holds h)) (hf.heldByLastAdopter p n h) h

/-- **Single ownership.** A node has one holder at most, which is its parent. What a splice moves
    goes over to the owner that takes it in, and its source keeps nothing. -/
theorem Run.holds_iff_parent? (hf : Run KeepsTree f history) :
    (∀ n p q, f.holds p n → f.holds q n → p = q)
      ∧ (∀ n p, f.holds p n ↔ f.parent? n = some p)
      ∧ ∀ e owner old new count, f.AsksToReplace e owner old new →
          (f.run e).result = .ok (.replaced (.spliced count)) →
          (f.run e).forest.isLive owner → ∀ n, some n ∈ f.items new →
            (f.run e).forest.parent? n = some owner ∧ ¬ (f.run e).forest.holds new n := by
  refine ⟨?_, ?_, ?_⟩
  · intro n p q hp hq
    have hlast := hf.heldByLastAdopter
    exact Option.some.inj ((hlast p n hp).symm.trans (hlast q n hq))
  · intro n p
    constructor
    · exact hf.parent?_of_holds
    · intro h
      exact (hf.reachable.linksAccurate n p h).2
  · intro e owner old new count hask hok hlive n hn
    have hrun := Run.edit e hf (hask.keepsTree hok)
    exact ⟨hrun.parent?_of_holds (hask.holds_owner hok hlive hn),
      hask.not_holds_source hok hf.makesSlotlessLists.listsSlotless n⟩

/-- Two blocks that hold an identifier each. -/
def twoBlocks : List Edit :=
  let block := Catalogue.spec Catalogue.block "" true true
  [.create block, .create block, .create (Catalogue.spec Catalogue.identifier "x" false true),
    .create (Catalogue.spec Catalogue.identifier "y" false true), .push 0 (some 2),
    .push 1 (some 3)]

theorem Run.holds_iff_parent?_twoBlocks :
    (empty.runAll twoBlocks).holds 1 3
      ∧ ((empty.runAll twoBlocks).run (.replaceChild 0 2 1)).forest.parent? 3 = some 0 := by
  have hrun : Run KeepsTree (empty.runAll twoBlocks) ([] ++ empty.historyOf twoBlocks) :=
    Run.start.runAll (by decide +kernel)
  have hlaw := Run.holds_iff_parent? hrun
  have hok : ((empty.runAll twoBlocks).run (.replaceChild 0 2 1)).result
      = .ok (.replaced (.spliced 1)) :=
    eq_ok_of_toOption (by decide +kernel)
  exact ⟨(hlaw.2.1 3 1).2 (by decide +kernel),
    (hlaw.2.2 _ 0 2 1 1 (Or.inl rfl) hok (by decide +kernel) 3 (by decide +kernel)).1⟩

end NodeForest.Forest
