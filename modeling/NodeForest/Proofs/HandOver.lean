import NodeForest.Forest.Adoption
import NodeForest.Proofs.Lookup

set_option autoImplicit false

/-! # Links handed over

An edit releases some nodes and then adopts others, one after the other. `Forest.handOver` sets all
those links at once, and every adoption and release is an instance of it, so what an edit does to
the links of a forest is read off one definition. -/

namespace NodeForest.Forest

/-- The forest after `owner` has released the nodes `released`, where they still name it, and then
    adopted the nodes `adopted`. -/
def handOver (f : Forest) (owner : NodeId) (released adopted : List NodeId) : Forest :=
  ⟨f.nodes.mapIdx fun n node? => node?.map fun node =>
    if n ∈ adopted then { node with parent? := f.self? owner }
    else if n ∈ released then node.cutLink (f.self? owner)
    else node⟩

theorem node?_handOver (f : Forest) (owner : NodeId) (released adopted : List NodeId)
    (n : NodeId) :
    (f.handOver owner released adopted).node? n = (f.node? n).map fun node =>
      if n ∈ adopted then { node with parent? := f.self? owner }
      else if n ∈ released then node.cutLink (f.self? owner)
      else node := by
  simp only [node?, handOver, Array.getElem?_mapIdx]
  cases f.nodes[n]? <;> rfl

theorem sameContents_handOver (f : Forest) (owner : NodeId) (released adopted : List NodeId)
    (n : NodeId) : SameContents f (f.handOver owner released adopted) n := by
  unfold SameContents
  rw [node?_handOver, Option.map_map]
  refine congrArg (Option.map · (f.node? n)) (funext fun node => ?_)
  rw [Function.comp_apply]
  split
  · rfl
  · split
    · exact node.contents_cutLink _
    · rfl

theorem parent?_handOver_of_mem {f : Forest} {owner n : NodeId} {adopted : List NodeId}
    (hn : f.isLive n) (h : n ∈ adopted) (released : List NodeId) :
    (f.handOver owner released adopted).parent? n = f.self? owner := by
  obtain ⟨node, hnode⟩ := isLive_iff.1 hn
  simp [parent?, node?_handOver, hnode, h]

theorem parent?_handOver_of_not_mem {f : Forest} {n : NodeId} {adopted : List NodeId}
    (h : n ∉ adopted) (owner : NodeId) (released : List NodeId) :
    (f.handOver owner released adopted).parent? n =
      if n ∈ released ∧ f.parent? n = f.self? owner then none else f.parent? n := by
  cases hnode : f.node? n with
  | none => simp [parent?, node?_handOver, hnode]
  | some node =>
    have hparent : f.parent? n = node.parent? := by simp [parent?, hnode]
    rw [hparent, parent?, node?_handOver, hnode, Option.map_some, Option.bind_some, if_neg h]
    by_cases hr : n ∈ released
    · simp only [hr, Node.cutLink, if_true, true_and]
      split <;> rfl
    · simp [hr]

/-! ## Every adoption and release is one -/

theorem size_handOver (f : Forest) (owner : NodeId) (released adopted : List NodeId) :
    (f.handOver owner released adopted).nodes.size = f.nodes.size := by
  simp [handOver]

theorem handOver_nil (f : Forest) (owner : NodeId) : f.handOver owner [] [] = f := by
  refine eq_of_node? (size_handOver ..) fun n => ?_
  simp [node?_handOver]

/-- Further adoptions by the same owner join the ones before. -/
theorem handOver_handOver (f : Forest) (owner : NodeId) (released adopted more : List NodeId) :
    (f.handOver owner released adopted).handOver owner [] more
      = f.handOver owner released (adopted ++ more) := by
  refine eq_of_node? (by simp only [size_handOver]) fun n => ?_
  simp only [node?_handOver, (sameContents_handOver f owner released adopted owner).self?,
    Option.map_map, List.mem_append]
  refine congrArg (Option.map · (f.node? n)) (funext fun node => ?_)
  rw [Function.comp_apply]
  by_cases hmore : n ∈ more
  -- The later adoption overwrites the link, whatever became of it before.
  · rw [if_pos hmore, if_pos (Or.inr hmore)]
    split
    · rfl
    · split
      · rw [Node.cutLink]
        split <;> rfl
      · rfl
  · rw [if_neg hmore, if_neg (by simp)]
    simp [hmore]

theorem adopt_eq (f : Forest) (owner child : NodeId) :
    f.adopt owner child = f.handOver owner [] [child] := by
  refine eq_of_node? (by rw [adopt, size_modify, size_handOver]) fun n => ?_
  rw [adopt, node?_modify, node?_handOver]
  by_cases h : n = child
  · simp [h]
  · simp [h]

theorem adoptOption_eq (f : Forest) (owner : NodeId) (child : Option NodeId) :
    f.adoptOption owner child = f.handOver owner [] child.toList := by
  cases child with
  | none => exact (handOver_nil f owner).symm
  | some child => exact adopt_eq f owner child

theorem adoptAll_eq (f : Forest) (owner : NodeId) (children : List (Option NodeId)) :
    f.adoptAll owner children = f.handOver owner [] (children.filterMap id) := by
  unfold adoptAll
  induction children.filterMap id generalizing f with
  | nil => exact (handOver_nil f owner).symm
  | cons child rest ih =>
    rw [List.foldl_cons, ih, adopt_eq, handOver_handOver]
    rfl

theorem disown_eq (f : Forest) (owner child : NodeId) :
    f.disown owner child = f.handOver owner [child] [] := by
  refine eq_of_node? (by rw [disown, size_modify, size_handOver]) fun n => ?_
  rw [disown, node?_modify, node?_handOver]
  by_cases h : n = child
  · simp [h]
  · simp [h]

/-- The node that was displaced, unless it stands in one of `places` still. -/
def leaving (displaced : Option NodeId) (places : List (Option NodeId)) : List NodeId :=
  displaced.toList.filter fun n => some n ∉ places

theorem mem_leaving {displaced : Option NodeId} {places : List (Option NodeId)} {n : NodeId} :
    n ∈ leaving displaced places ↔ displaced = some n ∧ some n ∉ places := by
  simp [leaving]

theorem handOver_leaving (f : Forest) (owner child : NodeId) (places : List (Option NodeId)) :
    f.handOver owner (leaving (some child) places) []
      = if some child ∈ places then f else f.disown owner child := by
  by_cases h : some child ∈ places
  · rw [if_pos h, leaving, Option.toList_some, List.filter_cons_of_neg (by simpa using h),
      List.filter_nil, handOver_nil]
  · rw [if_neg h, leaving, Option.toList_some, List.filter_cons_of_pos (by simpa using h),
      List.filter_nil, disown_eq]

theorem releaseFromSlots_eq (f : Forest) (owner child : NodeId) :
    f.releaseFromSlots owner child
      = f.handOver owner (leaving (some child) ((f.slots owner).map Slot.occupant)) [] := by
  unfold releaseFromSlots
  rw [handOver_leaving]
  simp

theorem releaseFromItems_eq (f : Forest) (owner child : NodeId) :
    f.releaseFromItems owner child
      = f.handOver owner (leaving (some child) (f.items owner)) [] := by
  unfold releaseFromItems
  rw [handOver_leaving]
  simp

end NodeForest.Forest
