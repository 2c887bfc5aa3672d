import NodeForest.Forest

set_option autoImplicit false

/-! # The life of a node

A node lives as long as a caller refers to it or a live node holds it. `Forest.reclaim` frees one
node without either after the other until there is none; a freed node lets go of what it held, so
whole trees go at once. Nodes that hold each other in a circle keep each other alive. -/

namespace NodeForest.Forest

/-- Whether some live node holds `n`. -/
def isHeld (f : Forest) (n : NodeId) : Bool :=
  f.nodes.any fun owner? => owner?.any (·.holds n)

/-- Whether `n` is alive although no caller and no live node refers to it. -/
def isLost (f : Forest) (n : NodeId) : Bool :=
  (f.node? n).any (·.callers == 0) && !f.isHeld n

/-- The first node that is lost. -/
def firstLost? (f : Forest) : Option NodeId :=
  (List.range f.nodes.size).find? f.isLost

/-- How many nodes are alive. -/
def liveCount (f : Forest) : Nat :=
  f.nodes.countP Option.isSome

/-- Freeing a live node leaves fewer. -/
theorem liveCount_free {f : Forest} {n : NodeId} (h : f.isLive n) :
    (f.free n).liveCount < f.liveCount := by
  have hn : n < f.nodes.size := by
    simp only [isLive, node?] at h
    grind
  have hlive : f.nodes[n].isSome := by
    simp only [isLive, node?] at h
    grind
  have hpos : 0 < f.nodes.countP Option.isSome :=
    Array.countP_pos_iff.mpr ⟨_, Array.getElem_mem hn, hlive⟩
  have hmap : Option.isSome ∘ Option.map (·.cutLink (some n)) = Option.isSome (α := Node) := by
    funext o
    simp
  simp only [liveCount, free, Array.countP_map, hmap, Array.setIfInBounds, hn, dif_pos,
    Array.countP_set, hlive, Option.isSome_none, Bool.false_eq_true, if_true, if_false,
    Nat.add_zero]
  exact Nat.sub_lt hpos Nat.one_pos

theorem isLive_of_firstLost? {f : Forest} {n : NodeId} (h : f.firstLost? = some n) :
    f.isLive n := by
  have hlost := List.find?_some h
  simp only [isLost, isLive, Bool.and_eq_true] at hlost ⊢
  cases hnode : f.node? n <;> simp_all

/-- Frees every node that is lost, and every node that is lost because of that. -/
def reclaim (f : Forest) : Forest :=
  match h : f.firstLost? with
  | none => f
  | some n =>
    have : (f.free n).liveCount < f.liveCount := liveCount_free (isLive_of_firstLost? h)
    reclaim (f.free n)
  termination_by f.liveCount

end NodeForest.Forest
