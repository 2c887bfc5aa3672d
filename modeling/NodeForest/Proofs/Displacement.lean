import NodeForest.Catalogue
import NodeForest.Proofs.ChildReplacement
import NodeForest.Proofs.Refusals

set_option autoImplicit false

/-! # Displaced nodes

Setting a slot, removing an item and replacing a child displace a node from one place of its owner.
Whether the owner remains its parent is decided by the other places of the same sort: slots are
searched for a node that has left a slot, items for one that has left the items. For an owner that
holds the displaced node in one sort of places only, this comes to whether it holds the node still.
A list whose kind declares slots can hold it in both, and then loses the link too early. -/

namespace NodeForest

/-- The sorts of places in which an owner holds nodes. -/
inductive PlaceSort where
  | slot
  | item
  deriving DecidableEq

/-- The sort that is not searched. -/
def PlaceSort.other : PlaceSort → PlaceSort
  | slot => item
  | item => slot

/-- A node that leaves a place of its owner. -/
structure Displacement where
  owner : NodeId
  sort : PlaceSort
  node : NodeId
  deriving DecidableEq

namespace Forest

/-- What stands in the places of one sort. -/
def placesOf (f : Forest) : PlaceSort → NodeId → List (Option NodeId)
  | .slot, owner => (f.slots owner).map Slot.occupant
  | .item, owner => f.items owner

/-- The sort of places in which `owner` looks for a child that it replaces. -/
def walkedSort (f : Forest) (owner : NodeId) : PlaceSort :=
  if f.isList owner then .item else .slot

/-- What leaves its place if the edit succeeds. -/
def displaced? (f : Forest) : Edit → Option Displacement
  | .fillSlot owner i _ => (f.slotOccupant owner i).map (⟨owner, .slot, ·⟩)
  | .setChild owner name _ =>
    (Slot.index? (f.slots owner) name).bind fun i =>
      (f.slotOccupant owner i).map (⟨owner, .slot, ·⟩)
  | .removeItem list child => some ⟨list, .item, child⟩
  | .replaceChild owner old _ => some ⟨owner, f.walkedSort owner, old⟩
  | .replace old _ => (f.parent? old).map fun owner => ⟨owner, f.walkedSort owner, old⟩
  | _ => none

variable {f g : Forest} {d : Displacement}

/-! ## Places of one sort -/

theorem placesOf_walkedSort (owner : NodeId) :
    f.placesOf (f.walkedSort owner) owner = f.places owner := by
  unfold walkedSort
  by_cases hlist : f.isList owner
  · rw [if_pos hlist, places_of_isList hlist, placesOf]
  · rw [if_neg hlist, places_of_not_isList hlist, placesOf]

theorem holds_iff_placesOf (sort : PlaceSort) {owner n : NodeId} :
    f.holds owner n ↔
      some n ∈ f.placesOf sort owner ∨ some n ∈ f.placesOf sort.other owner := by
  rw [holds_iff]
  cases sort with
  | slot => rfl
  | item => exact or_comm

theorem SameContents.placesOf {n : NodeId} (h : SameContents f g n) (sort : PlaceSort) :
    g.placesOf sort n = f.placesOf sort n := by
  cases sort with
  | slot => exact congrArg (List.map Slot.occupant) h.slots
  | item => exact h.items

theorem placesOf_free (m n : NodeId) (sort : PlaceSort) :
    (f.free m).placesOf sort n = if n = m then [] else f.placesOf sort n := by
  by_cases hn : n = m
  · subst hn
    have hnone : (f.free n).node? n = none := by rw [node?_free, if_pos rfl]
    rw [if_pos rfl]
    cases sort with
    | slot => simp [Forest.placesOf, slots, hnone]
    | item => simp [Forest.placesOf, items, hnone]
  · rw [if_neg hn]
    exact (sameContents_free f hn).placesOf sort

/-! ## The link of what is displaced -/

/-- `g` comes from `f` by a displacement: the owner is still the parent if the node stands in
    another place of the same sort, and nobody is otherwise. Places of the other sort gain
    nothing. -/
structure Displaces (f : Forest) (d : Displacement) (g : Forest) : Prop where
  link : g.parent? d.node
    = if some d.node ∈ g.placesOf d.sort d.owner then some d.owner else none
  others : some d.node ∈ g.placesOf d.sort.other d.owner →
    some d.node ∈ f.placesOf d.sort.other d.owner

/-- What an edit stores has its effect on the link when the owner releases what it has displaced,
    unless that stands in another place, and adopts what it has put in. -/
theorem displaces_of_stored {stored : Forest} {adopted : List NodeId}
    (hself : stored.self? d.owner = some d.owner) (hparent : stored.parent? d.node = some d.owner)
    (hadopted : ∀ n ∈ adopted, some n ∈ stored.placesOf d.sort d.owner)
    (hothers : stored.placesOf d.sort.other d.owner = f.placesOf d.sort.other d.owner) :
    f.Displaces d (stored.handOver d.owner
      (leaving (some d.node) (stored.placesOf d.sort d.owner)) adopted) := by
  constructor
  · rw [(sameContents_handOver ..).placesOf]
    by_cases hn : d.node ∈ adopted
    · rw [parent?_handOver_of_mem (isLive_of_parent? hparent) hn, hself, if_pos (hadopted _ hn)]
    · rw [parent?_handOver_of_not_mem hn, hself, hparent]
      simp [mem_leaving]
  · rw [(sameContents_handOver ..).placesOf, hothers]
    exact id

theorem displaces_fillSlot {owner n : NodeId} {i : Nat} (hself : f.self? owner = some owner)
    (hparent : f.parent? n = some owner) (hn : f.slotOccupant owner i = some n)
    (value : Option NodeId) : f.Displaces ⟨owner, .slot, n⟩ (f.fillSlot owner i value).2 := by
  have hi : i < (f.slots owner).length := by
    rw [slotOccupant_eq_some] at hn
    simpa using (List.getElem?_eq_some_iff.1 hn).1
  rw [fillSlot_eq, hn]
  refine displaces_of_stored (d := ⟨owner, .slot, n⟩) ((self?_storeSlot ..).trans hself)
    ((parent?_storeSlot ..).trans hparent) ?_ (items_storeSlot ..)
  intro m hm
  obtain rfl := Option.mem_toList.1 hm
  show some m ∈ ((f.storeSlot owner i (some m)).slots owner).map Slot.occupant
  rw [occupants_storeSlot hi]
  exact mem_exchange_of_mem_moved (List.mem_singleton_self _) _ i

theorem displaces_removeItem {list n : NodeId} (hself : f.self? list = some list)
    (hparent : f.parent? n = some list) (hok : (f.removeItem list n).result = .ok n) :
    f.Displaces ⟨list, .item, n⟩ (f.removeItem list n).forest := by
  unfold removeItem at hok ⊢
  cases hpos : f.position? list n with
  | none => simp [hpos] at hok
  | some i =>
    simp only [releaseFromItems_eq]
    exact displaces_of_stored (d := ⟨list, .item, n⟩) ((self?_setItems ..).trans hself)
      ((parent?_setItems ..).trans hparent) (fun m hm => absurd hm List.not_mem_nil)
      (congrArg (List.map Slot.occupant) (slots_setItems ..))

theorem displaces_replaceChild {owner n new : NodeId} {r : Replacement}
    (hself : f.self? owner = some owner) (hparent : f.parent? n = some owner)
    (hok : (f.replaceChild owner n new).result = .ok r) :
    f.Displaces ⟨owner, f.walkedSort owner, n⟩ (f.replaceChild owner n new).forest := by
  obtain ⟨hold, -, h⟩ := childReplaced_of_result_eq_ok hok
  generalize (f.replaceChild owner n new).forest = g at h
  have hsort : g.walkedSort owner = f.walkedSort owner := by
    unfold walkedSort
    rw [(h.frame owner).isList]
  constructor
  · show g.parent? n = if some n ∈ g.placesOf (f.walkedSort owner) owner then some owner else none
    rw [← hsort, placesOf_walkedSort, h.parent? n (isLive_of_parent? hparent), hself, hparent]
    by_cases hbrought : some n ∈ f.brought owner new
    · have hmem : some n ∈ g.places owner := by
        rw [h.places, if_pos rfl]
        exact mem_giveWay_of_mem_moved hold hbrought
      rw [if_pos hbrought, if_pos hmem]
    · simp [hbrought]
  · show some n ∈ g.placesOf (f.walkedSort owner).other owner →
      some n ∈ f.placesOf (f.walkedSort owner).other owner
    unfold walkedSort
    by_cases hlist : f.isList owner
    · rw [if_pos hlist, PlaceSort.other, placesOf, placesOf, h.slots_of_isList hlist]
      exact id
    · rw [if_neg hlist, PlaceSort.other, placesOf, items_eq_nil ((h.frame owner).isList ▸ hlist)]
      intro hmem
      cases hmem

/-! ## The law -/

theorem Displaces.free {m : NodeId} (h : f.Displaces d g) (hlost : g.isLost m) :
    f.Displaces d (g.free m) := by
  constructor
  · rw [placesOf_free]
    by_cases hmem : some d.node ∈ g.placesOf d.sort d.owner
    · have hlink := h.link
      rw [if_pos hmem] at hlink
      have hnode : d.node ≠ m := by
        rintro rfl
        exact not_holds_of_isLost hlost d.owner ((holds_iff_placesOf d.sort).2 (Or.inl hmem))
      by_cases howner : d.owner = m
      · rw [if_pos howner, if_neg List.not_mem_nil, Option.eq_none_iff_forall_ne_some]
        intro p hp
        obtain ⟨hbefore, -, hne⟩ := parent?_free.1 hp
        exact hne (Option.some.inj (hbefore.symm.trans hlink) ▸ howner)
      · rw [if_neg howner, if_pos hmem]
        exact parent?_free.2 ⟨hlink, hnode, howner⟩
    · have hlink := h.link
      rw [if_neg hmem] at hlink
      have hnone : some d.node ∉ if d.owner = m then [] else g.placesOf d.sort d.owner := by
        split
        · exact List.not_mem_nil
        · exact hmem
      rw [if_neg hnone, Option.eq_none_iff_forall_ne_some]
      intro p hp
      rw [(parent?_free.1 hp).1] at hlink
      cases hlink
  · rw [placesOf_free]
    split
    · intro hmem
      cases hmem
    · exact h.others

theorem Displaces.reclaim (h : f.Displaces d g) : f.Displaces d g.reclaim := by
  fun_induction Forest.reclaim g with
  | case1 g _ => exact h
  | case2 g m hm _ ih => exact ih (h.free (isLost_of_firstLost? hm))

theorem displaces_carryOut {e : Edit} {answer : Answer} (hd : f.displaced? e = some d)
    (hself : f.self? d.owner = some d.owner) (hparent : f.parent? d.node = some d.owner)
    (hok : (f.carryOut e).result = .ok answer) : f.Displaces d (f.carryOut e).forest := by
  cases e with
  | fillSlot owner i value =>
    obtain ⟨n, hn, rfl⟩ := Option.map_eq_some_iff.1 hd
    rw [carryOut] at hok ⊢
    split
    · exact displaces_fillSlot hself hparent hn value
    · next hi => simp [hi] at hok
  | setChild owner name value =>
    obtain ⟨i, hi, hocc⟩ := Option.bind_eq_some_iff.1 hd
    obtain ⟨n, hn, rfl⟩ := Option.map_eq_some_iff.1 hocc
    rw [carryOut, setChild, hi]
    exact displaces_fillSlot hself hparent hn value
  | removeItem list child =>
    obtain rfl := Option.some.inj hd
    rcases removeItem_cases f list child with ⟨herror, -⟩ | ⟨hremoved, -⟩
    · rw [carryOut, Outcome.ofTree, herror] at hok
      cases hok
    · exact displaces_removeItem hself hparent hremoved
  | replaceChild owner old new =>
    obtain rfl := Option.some.inj hd
    rcases replaceChild_cases f owner old new with ⟨e, herror, -⟩ | ⟨-, r, hreplaced, -⟩
    · rw [carryOut, Outcome.ofTree, herror] at hok
      cases hok
    · exact displaces_replaceChild hself hparent hreplaced
  | replace old new =>
    obtain ⟨owner, howner, rfl⟩ := Option.map_eq_some_iff.1 hd
    rw [carryOut, Outcome.ofTree] at hok ⊢
    rcases f.asks_or_not old with hnone | ⟨p, hp, hknown⟩
    · rw [replace_eq_noParent hnone] at hok
      cases hok
    · obtain rfl := Option.some.inj (hp.symm.trans howner)
      rw [replace_eq_replaceChild hp hknown] at hok ⊢
      cases hresult : (f.replaceChild p old new).result with
      | error e => simp [hresult] at hok
      | ok r => exact displaces_replaceChild hself hparent hresult
  | _ => cases hd

/-- **What becomes of the link of a displaced node.** The owner is its parent afterwards if the node
    stands in another place of the same sort, and the node has no parent otherwise. If the node
    stood in no place of the other sort before, this is whether the owner holds it still. -/
theorem Reachable.parent?_of_displaced (hf : Reachable f) {e : Edit} {answer : Answer}
    (hd : f.displaced? e = some d) (hparent : f.parent? d.node = some d.owner)
    (hok : (f.run e).result = .ok answer) :
    (f.run e).forest.parent? d.node
        = (if some d.node ∈ (f.run e).forest.placesOf d.sort d.owner then some d.owner else none)
      ∧ (some d.node ∉ f.placesOf d.sort.other d.owner →
          ((f.run e).forest.parent? d.node = some d.owner ↔
            (f.run e).forest.holds d.owner d.node)) := by
  have hself := (hf.linksAccurate d.node d.owner hparent).1
  have h : f.Displaces d (f.run e).forest := by
    rcases perform_cases f e with ⟨refusal, hperform⟩ | ⟨-, -, hperform⟩
    · rw [Forest.run, hperform] at hok
      cases hok
    · rw [Forest.run, hperform] at hok ⊢
      exact (displaces_carryOut hd hself hparent hok).reclaim
  refine ⟨h.link, fun hother => ?_⟩
  rw [h.link, holds_iff_placesOf d.sort, or_iff_left (mt h.others hother)]
  simp

/-- A list that has a slot. One node stands in the slot and among the items, another one twice among
    the items. -/
def ringWithSlot : List Edit :=
  let identifier := Catalogue.spec Catalogue.identifier "x" false true
  [.create ⟨⟨"Ring", none⟩, .root ⟨"Ring", "Ring", ["next"]⟩, "", true, true⟩,
    .create identifier, .create identifier, .push 0 (some 1), .fillSlot 0 0 (some 1),
    .push 0 (some 2), .push 0 (some 2)]

theorem Reachable.parent?_of_displaced_ringWithSlot :
    ((empty.runAll ringWithSlot).run (.removeItem 0 1)).forest.parent? 1 = none
      ∧ ((empty.runAll ringWithSlot).run (.removeItem 0 2)).forest.parent? 2 = some 0 := by
  have hf := Reachable.start.runAll ringWithSlot
  have hfirst : (empty.runAll ringWithSlot).displaced? (.removeItem 0 1) = some ⟨0, .item, 1⟩ := by
    decide +kernel
  have hsecond : (empty.runAll ringWithSlot).displaced? (.removeItem 0 2) = some ⟨0, .item, 2⟩ := by
    decide +kernel
  have hremoved : ((empty.runAll ringWithSlot).run (.removeItem 0 1)).result = .ok (.removed 1) :=
    eq_ok_of_toOption (by decide +kernel)
  have hremoved' : ((empty.runAll ringWithSlot).run (.removeItem 0 2)).result = .ok (.removed 2) :=
    eq_ok_of_toOption (by decide +kernel)
  obtain ⟨hcut, -⟩ := Reachable.parent?_of_displaced hf hfirst (by decide +kernel) hremoved
  obtain ⟨-, hkept⟩ := Reachable.parent?_of_displaced hf hsecond (by decide +kernel) hremoved'
  exact ⟨hcut.trans (by decide +kernel), (hkept (by decide +kernel)).2 (by decide +kernel)⟩

/-- A list with a slot can lose its link to a node that it holds still: out of the items the node
    goes while it stands in the slot, and out of the slot while it stands among the items. -/
theorem exists_displaced_and_held :
    ∃ f, Reachable f ∧ f.parent? 1 = some 0
      ∧ (f.run (.removeItem 0 1)).result = .ok (.removed 1)
      ∧ (f.run (.removeItem 0 1)).forest.holds 0 1
      ∧ (f.run (.removeItem 0 1)).forest.parent? 1 = none
      ∧ (f.run (.fillSlot 0 0 none)).result = .ok (.previous (some 1))
      ∧ (f.run (.fillSlot 0 0 none)).forest.holds 0 1
      ∧ (f.run (.fillSlot 0 0 none)).forest.parent? 1 = none :=
  ⟨empty.runAll ringWithSlot, Reachable.start.runAll ringWithSlot, by decide +kernel,
    eq_ok_of_toOption (by decide +kernel), by decide +kernel, by decide +kernel,
    eq_ok_of_toOption (by decide +kernel), by decide +kernel, by decide +kernel⟩

end Forest

end NodeForest
