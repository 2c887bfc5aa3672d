import NodeForest.Forest

set_option autoImplicit false

/-! # Looking nodes up after a change

What `Forest.node?` finds after each elementary change, and what the other readings of a forest find
then. Most changes leave most nodes with the contents they had; `SameContents` says this of one node,
and every reading but that of the parent link follows from it. -/

namespace NodeForest

/-- The node without its link and its callers: what it is and what it holds. -/
def Node.contents (n : Node) : Node :=
  { n with parent? := none, callers := 0 }

theorem Node.contents_cutLink (n : Node) (parent : Option NodeId) :
    (n.cutLink parent).contents = n.contents := by
  rw [Node.cutLink]
  split <;> rfl

namespace Forest

/-! ## Nodes after an elementary change -/

@[simp] theorem node?_empty (n : NodeId) : empty.node? n = none := by
  simp [node?, empty]

theorem node?_insert (f : Forest) (node : Node) (n : NodeId) :
    (f.insert node).2.node? n = if n = f.nodes.size then some node else f.node? n := by
  simp only [node?, insert, Array.getElem?_push]
  split <;> rfl

theorem node?_modify (f : Forest) (n : NodeId) (change : Node → Node) (m : NodeId) :
    (f.modify n change).node? m = if m = n then (f.node? m).map change else f.node? m := by
  simp only [node?, modify, Array.getElem?_modify, eq_comm (a := n)]
  split
  · cases f.nodes[m]? <;> rfl
  · rfl

theorem node?_free (f : Forest) (n m : NodeId) :
    (f.free n).node? m = if m = n then none else (f.node? m).map (·.cutLink (some n)) := by
  simp only [node?, free, Array.getElem?_map, Array.getElem?_setIfInBounds]
  by_cases h : m = n
  · subst h
    by_cases hlt : m < f.nodes.size
    · simp [hlt]
    · simp [hlt]
  · rw [if_neg h, if_neg (Ne.symm h)]
    cases f.nodes[m]? <;> rfl

theorem size_modify (f : Forest) (n : NodeId) (change : Node → Node) :
    (f.modify n change).nodes.size = f.nodes.size := by
  simp [modify]

theorem size_free (f : Forest) (n : NodeId) : (f.free n).nodes.size = f.nodes.size := by
  simp [free]

/-- Forests of one size that find the same nodes are equal. -/
theorem eq_of_node? {f g : Forest} (hsize : f.nodes.size = g.nodes.size)
    (h : ∀ n, f.node? n = g.node? n) : f = g := by
  obtain ⟨fs⟩ := f
  obtain ⟨gs⟩ := g
  congr 1
  apply Array.ext hsize
  intro i hf hg
  have hi := h i
  simp only [node?, Array.getElem?_eq_getElem hf, Array.getElem?_eq_getElem hg] at hi
  simpa using hi

theorem isLive_iff {f : Forest} {n : NodeId} : f.isLive n ↔ ∃ node, f.node? n = some node :=
  Option.isSome_iff_exists

theorem not_isLive_empty (n : NodeId) : ¬ empty.isLive n := by
  rw [isLive, node?_empty]
  exact Bool.false_ne_true

/-- The next identity is nobody's yet. -/
theorem node?_size (f : Forest) : f.node? f.nodes.size = none := by
  simp [node?]

theorem lt_size_of_isLive {f : Forest} {n : NodeId} (h : f.isLive n) : n < f.nodes.size := by
  obtain ⟨node, hnode⟩ := isLive_iff.1 h
  rw [node?, Option.join_eq_some_iff] at hnode
  exact (Array.getElem?_eq_some_iff.1 hnode).1

theorem ne_of_isLive_free {f : Forest} {n m : NodeId} (h : (f.free n).isLive m) : m ≠ n := by
  rintro rfl
  rw [isLive, node?_free, if_pos rfl] at h
  cases h

/-! ## Readings -/

theorem holds_iff {f : Forest} {owner child : NodeId} :
    f.holds owner child ↔
      some child ∈ (f.slots owner).map Slot.occupant ∨ some child ∈ f.items owner := by
  simp only [holds, slots, items]
  cases f.node? owner with
  | none => simp
  | some node => simp [Node.holds, Node.occupants]

theorem isLive_of_holds {f : Forest} {owner child : NodeId} (h : f.holds owner child) :
    f.isLive owner := by
  simp only [holds, isLive] at *
  cases hnode : f.node? owner with
  | none => simp [hnode] at h
  | some node => rfl

theorem self?_eq_some {f : Forest} {n p : NodeId} (h : f.self? n = some p) : p = n := by
  simp only [self?, Option.bind_eq_some_iff] at h
  obtain ⟨node, -, hn⟩ := h
  split at hn
  · exact (Option.some.inj hn).symm
  · cases hn

theorem isLive_of_self? {f : Forest} {n p : NodeId} (h : f.self? n = some p) : f.isLive n := by
  simp only [self?, Option.bind_eq_some_iff] at h
  obtain ⟨node, hnode, -⟩ := h
  exact isLive_iff.2 ⟨node, hnode⟩

theorem isLive_of_parent? {f : Forest} {n p : NodeId} (h : f.parent? n = some p) :
    f.isLive n := by
  simp only [parent?, Option.bind_eq_some_iff] at h
  obtain ⟨node, hnode, -⟩ := h
  exact isLive_iff.2 ⟨node, hnode⟩

theorem parent?_of_not_isLive {f : Forest} {n : NodeId} (h : ¬ f.isLive n) : f.parent? n = none :=
  Option.eq_none_iff_forall_ne_some.2 fun _ hp => h (isLive_of_parent? hp)

theorem isLive_of_isList {f : Forest} {n : NodeId} (h : f.isList n) : f.isLive n := by
  simp only [isList, Option.isSome_iff_exists, Option.bind_eq_some_iff] at h
  obtain ⟨_, node, hnode, -⟩ := h
  exact isLive_iff.2 ⟨node, hnode⟩

/-! ## Readings that a change leaves alone -/

section Modify

variable (f : Forest) (n : NodeId) (change : Node → Node)

theorem map_modify {α : Type} (reading : Node → α)
    (h : ∀ node, reading (change node) = reading node) (m : NodeId) :
    ((f.modify n change).node? m).map reading = (f.node? m).map reading := by
  rw [node?_modify]
  split
  · rw [Option.map_map]
    exact congrArg (Option.map · (f.node? m)) (funext h)
  · rfl

theorem bind_modify {α : Type} (reading : Node → Option α)
    (h : ∀ node, reading (change node) = reading node) (m : NodeId) :
    ((f.modify n change).node? m).bind reading = (f.node? m).bind reading := by
  rw [node?_modify]
  split
  · rw [Option.bind_map]
    exact congrArg (Option.bind (f.node? m)) (funext h)
  · rfl

theorem isLive_modify (m : NodeId) : (f.modify n change).isLive m = f.isLive m := by
  unfold isLive
  rw [node?_modify]
  split
  · exact Option.isSome_map
  · rfl

theorem self?_modify (h : ∀ node, (change node).isAnchored = node.isAnchored) (m : NodeId) :
    (f.modify n change).self? m = f.self? m :=
  bind_modify f n change (fun node => if node.isAnchored then some m else none)
    (fun node => by rw [h node]) m

theorem parent?_modify (h : ∀ node, (change node).parent? = node.parent?) (m : NodeId) :
    (f.modify n change).parent? m = f.parent? m :=
  bind_modify f n change (·.parent?) h m

theorem slots_modify (h : ∀ node, (change node).slots = node.slots) (m : NodeId) :
    (f.modify n change).slots m = f.slots m :=
  congrArg (·.getD []) (map_modify f n change (·.slots) h m)

theorem items_modify (h : ∀ node, (change node).items? = node.items?) (m : NodeId) :
    (f.modify n change).items m = f.items m :=
  congrArg (·.getD []) (bind_modify f n change (·.items?) h m)

theorem isList_modify (h : ∀ node, (change node).items? = node.items?) (m : NodeId) :
    (f.modify n change).isList m = f.isList m :=
  congrArg Option.isSome (bind_modify f n change (·.items?) h m)

end Modify

/-! ## Nodes whose contents stay -/

/-- `n` is the same in `f` and `g`, its link and its callers apart. -/
def SameContents (f g : Forest) (n : NodeId) : Prop :=
  (g.node? n).map Node.contents = (f.node? n).map Node.contents

theorem SameContents.of_node? {f g : Forest} {n : NodeId} (h : g.node? n = f.node? n) :
    SameContents f g n := by
  unfold SameContents
  rw [h]

/-- A change that leaves the contents of every node leaves those of each. -/
theorem sameContents_modify (f : Forest) (n : NodeId) (change : Node → Node)
    (h : ∀ node, (change node).contents = node.contents) (m : NodeId) :
    SameContents f (f.modify n change) m :=
  map_modify f n change Node.contents h m

theorem sameContents_modify_of_ne (f : Forest) (change : Node → Node) {n m : NodeId}
    (h : m ≠ n) : SameContents f (f.modify n change) m :=
  .of_node? (by rw [node?_modify, if_neg h])

theorem sameContents_insert (f : Forest) (node : Node) {n : NodeId} (h : n ≠ f.nodes.size) :
    SameContents f (f.insert node).2 n :=
  .of_node? (by rw [node?_insert, if_neg h])

theorem sameContents_free (f : Forest) {n m : NodeId} (h : m ≠ n) :
    SameContents f (f.free n) m := by
  unfold SameContents
  rw [node?_free, if_neg h, Option.map_map]
  exact congrArg (Option.map · (f.node? m)) (funext fun node => node.contents_cutLink (some n))

section Readings

variable {f g : Forest} {n : NodeId}

/-- Two nodes that are the same once each is stripped of some data are read alike by what does not
    depend on that data. -/
theorem read_of_strip {α : Type} {strip : Node → Node}
    (h : (g.node? n).map strip = (f.node? n).map strip) (reading : Node → α)
    (hread : ∀ node : Node, reading (strip node) = reading node) :
    (g.node? n).map reading = (f.node? n).map reading := by
  have := congrArg (Option.map reading) h
  simpa only [Option.map_map, Function.comp_def, hread] using this

theorem bind_of_strip {α : Type} {strip : Node → Node}
    (h : (g.node? n).map strip = (f.node? n).map strip) (reading : Node → Option α)
    (hread : ∀ node : Node, reading (strip node) = reading node) :
    (g.node? n).bind reading = (f.node? n).bind reading := by
  have := congrArg (·.bind reading) h
  simpa only [Option.bind_map, Function.comp_def, hread] using this

/-- What depends on the contents of a node alone is read alike. -/
theorem SameContents.read {α : Type} (h : SameContents f g n) (reading : Node → α)
    (hread : ∀ node : Node, reading node.contents = reading node) :
    (g.node? n).map reading = (f.node? n).map reading :=
  read_of_strip h reading hread

theorem SameContents.bind {α : Type} (h : SameContents f g n) (reading : Node → Option α)
    (hread : ∀ node : Node, reading node.contents = reading node) :
    (g.node? n).bind reading = (f.node? n).bind reading :=
  bind_of_strip h reading hread

theorem SameContents.isLive (h : SameContents f g n) : g.isLive n = f.isLive n := by
  simpa [Forest.isLive] using congrArg Option.isSome h

theorem SameContents.self? (h : SameContents f g n) : g.self? n = f.self? n :=
  h.bind _ fun _ => rfl

theorem SameContents.slots (h : SameContents f g n) : g.slots n = f.slots n :=
  congrArg (·.getD []) (h.read (·.slots) fun _ => rfl)

theorem SameContents.items (h : SameContents f g n) : g.items n = f.items n :=
  congrArg (·.getD []) (h.bind (·.items?) fun _ => rfl)

theorem SameContents.isList (h : SameContents f g n) : g.isList n = f.isList n :=
  congrArg Option.isSome (h.bind (·.items?) fun _ => rfl)

theorem SameContents.holds (h : SameContents f g n) (child : NodeId) :
    g.holds n child = f.holds n child := by
  rw [Bool.eq_iff_iff, holds_iff, holds_iff, h.slots, h.items]

end Readings

/-! ## Parent links -/

theorem parent?_insert_fresh (f : Forest) (spec : NodeSpec) (n : NodeId) :
    (f.insert (Node.fresh spec)).2.parent? n = f.parent? n := by
  rw [parent?, parent?, node?_insert]
  split
  · next h => rw [h, node?_size]; rfl
  · rfl

theorem parent?_free {f : Forest} {n m p : NodeId} :
    (f.free n).parent? m = some p ↔ f.parent? m = some p ∧ m ≠ n ∧ p ≠ n := by
  rw [parent?, parent?, node?_free]
  by_cases hm : m = n
  · simp [hm]
  · rw [if_neg hm]
    cases f.node? m with
    | none => simp
    | some node =>
      by_cases hp : node.parent? = some n
      · simp only [Option.map_some, Option.bind_some, Node.cutLink, hp]
        grind
      · simp only [Option.map_some, Option.bind_some, Node.cutLink, if_neg hp]
        grind

end Forest

end NodeForest
