import NodeForest.Proofs.ItemReplacement

set_option autoImplicit false

/-! # The places of a node

The places of a list are its items, those of any other node are its slots: there a walk finds the
children, and there a replacement looks for the child it replaces. What is left of a node without
its places and its link is its frame. A forest is determined by the frames, the places and the
links of its nodes (`eq_of_frame`). -/

namespace NodeForest

namespace Node

/-- What stands in each place that a walk visits: the items of a list, the slots of any other
    node. -/
def places (n : Node) : List (Option NodeId) :=
  match n.items? with
  | some items => items
  | none => n.slots.map Slot.occupant

/-- The node with empty slots, or without items if it is a list, and without its link. The slots of
    a list are no places, and stay. -/
def frame (n : Node) : Node :=
  match n.items? with
  | some _ => { n with items? := some [], parent? := none }
  | none =>
    { n with slots := n.slots.map fun s => { s with occupant := none }, parent? := none }

theorem children_eq (n : Node) : n.children = n.places.filterMap id := by
  unfold children places
  cases n.items? with
  | some items => rfl
  | none => simp [List.filterMap_map]

/-- Slots are told apart by their names and their occupants. -/
theorem slots_eq {ss ts : List (Slot NodeId)}
    (hnames : ss.map (fun s => { s with occupant := none })
      = ts.map fun s => { s with occupant := (none : Option NodeId) })
    (hoccupants : ss.map Slot.occupant = ts.map Slot.occupant) : ss = ts := by
  induction ss generalizing ts with
  | nil => exact (List.map_eq_nil_iff.1 hnames.symm).symm
  | cons s rest ih =>
    cases ts with
    | nil => cases hnames
    | cons t rest' =>
      simp only [List.map_cons, List.cons.injEq, Slot.mk.injEq, and_true] at hnames hoccupants
      obtain ⟨name, occupant⟩ := s
      obtain ⟨name', occupant'⟩ := t
      obtain ⟨rfl, hrest⟩ := hnames
      obtain ⟨rfl, hrest'⟩ := hoccupants
      rw [ih hrest hrest']

theorem isSome_items?_frame (n : Node) : n.frame.items?.isSome = n.items?.isSome := by
  unfold frame
  cases h : n.items? with
  | some items => rfl
  | none => simp

/-- A node is determined by its frame, its places and its link. -/
theorem eq_of_frame {m n : Node} (hframe : m.frame = n.frame) (hplaces : m.places = n.places)
    (hparent : m.parent? = n.parent?) : m = n := by
  have hsort : m.items?.isSome = n.items?.isSome := by
    rw [← isSome_items?_frame m, hframe, isSome_items?_frame]
  obtain ⟨mtype, mkind, mtext, manchored, mslots, mitems, mparent, mcallers⟩ := m
  obtain ⟨ntype, nkind, ntext, nanchored, nslots, nitems, nparent, ncallers⟩ := n
  simp only at hparent
  subst hparent
  cases mitems with
  | some items =>
    obtain ⟨items', rfl⟩ := Option.isSome_iff_exists.1 hsort.symm
    simp only [frame, places, Node.mk.injEq] at hframe hplaces
    simp [hframe, hplaces]
  | none =>
    obtain rfl : nitems = none := by simpa using hsort.symm
    simp only [frame, places, Node.mk.injEq] at hframe hplaces
    simp [hframe, slots_eq hframe.2.2.2.2.1 hplaces]

theorem frame_unlinked (n : Node) : { n with parent? := none }.frame = n.frame := by
  unfold frame
  cases n.items? <;> rfl

end Node

namespace Forest

variable {f g : Forest}

/-- What stands in each place of `n` that a walk visits. -/
def places (f : Forest) (n : NodeId) : List (Option NodeId) :=
  ((f.node? n).map Node.places).getD []

theorem places_of_isList {n : NodeId} (h : f.isList n) : f.places n = f.items n := by
  unfold isList at h
  unfold places items
  cases hnode : f.node? n with
  | none => rfl
  | some node =>
    obtain ⟨items, hitems⟩ := Option.isSome_iff_exists.1 (by simpa [hnode] using h)
    simp [Node.places, hitems]

theorem places_of_not_isList {n : NodeId} (h : ¬ f.isList n) :
    f.places n = (f.slots n).map Slot.occupant := by
  unfold isList at h
  unfold places slots
  cases hnode : f.node? n with
  | none => rfl
  | some node =>
    have hitems : node.items? = none := by simpa [hnode] using h
    simp [Node.places, hitems]

theorem mem_children {p n : NodeId} : n ∈ f.children p ↔ some n ∈ f.places p := by
  unfold children places
  cases f.node? p with
  | none => simp
  | some node => simp [Node.children_eq]

/-- A node holds what stands in its places, and a list what stands in its slots besides. -/
theorem holds_iff_places {p n : NodeId} :
    f.holds p n ↔ some n ∈ f.places p ∨ f.isList p ∧ some n ∈ (f.slots p).map Slot.occupant := by
  rw [holds_iff]
  by_cases hlist : f.isList p
  · rw [places_of_isList hlist, or_comm]
    simp only [hlist, true_and]
  · rw [places_of_not_isList hlist, items_eq_nil hlist]
    simp [hlist]

theorem holds_of_mem_places {p n : NodeId} (h : some n ∈ f.places p) : f.holds p n :=
  holds_iff_places.2 (Or.inl h)

/-! ## Nodes whose frame stays -/

/-- `n` is the same in `f` and `g`, its places and its link apart. -/
def SameFrame (f g : Forest) (n : NodeId) : Prop :=
  (g.node? n).map Node.frame = (f.node? n).map Node.frame

section Frame

variable {n : NodeId}

theorem SameFrame.trans {h : Forest} (hfg : SameFrame f g n) (hgh : SameFrame g h n) :
    SameFrame f h n :=
  Eq.trans hgh hfg

/-- What does not depend on places and link is read alike. -/
theorem SameFrame.read {α : Type} (h : SameFrame f g n) (reading : Node → α)
    (hread : ∀ node : Node, reading node.frame = reading node) :
    (g.node? n).map reading = (f.node? n).map reading :=
  read_of_strip h reading hread

theorem SameFrame.isLive (h : SameFrame f g n) : g.isLive n = f.isLive n := by
  simpa [Forest.isLive] using congrArg Option.isSome h

theorem SameFrame.self? (h : SameFrame f g n) : g.self? n = f.self? n := by
  refine bind_of_strip h _ fun node => ?_
  unfold Node.frame
  split <;> rfl

theorem SameFrame.kind? (h : SameFrame f g n) : g.kind? n = f.kind? n := by
  refine h.read (·.kind) fun node => ?_
  unfold Node.frame
  split <;> rfl

theorem SameFrame.callers (h : SameFrame f g n) : g.callers n = f.callers n := by
  refine congrArg (·.getD 0) (h.read (·.callers) fun node => ?_)
  unfold Node.frame
  split <;> rfl

theorem SameFrame.isList (h : SameFrame f g n) : g.isList n = f.isList n := by
  rw [isList_eq, isList_eq, h.read (·.items?.isSome) Node.isSome_items?_frame]

/-- The slots of a list belong to its frame. -/
theorem SameFrame.slots (h : SameFrame f g n) (hlist : f.isList n) : g.slots n = f.slots n := by
  have hread : (g.node? n).map (fun node => node.items?.elim [] fun _ => node.slots)
      = (f.node? n).map fun node => node.items?.elim [] fun _ => node.slots := by
    refine h.read _ fun node => ?_
    unfold Node.frame
    cases hitems : node.items? with
    | some items => rfl
    | none => simp
  have hlist' := h.isList.trans hlist
  unfold Forest.slots
  unfold Forest.isList at hlist hlist'
  cases hf : f.node? n with
  | none => simp [hf] at hlist
  | some node =>
    cases hg : g.node? n with
    | none => simp [hg] at hlist'
    | some node' =>
      obtain ⟨items, hitems⟩ := Option.isSome_iff_exists.1 (by simpa [hf] using hlist)
      obtain ⟨items', hitems'⟩ := Option.isSome_iff_exists.1 (by simpa [hg] using hlist')
      simpa [hf, hg, hitems, hitems'] using hread

theorem SameShell.sameFrame (h : SameShell f g n) : SameFrame f g n := by
  refine read_of_strip h Node.frame fun node => ?_
  unfold Node.shell Node.frame
  cases node.items? <;> rfl

theorem sameFrame_handOver (f : Forest) (owner : NodeId) (released adopted : List NodeId)
    (n : NodeId) : SameFrame f (f.handOver owner released adopted) n :=
  (sameShell_handOver owner released adopted n).sameFrame

theorem SameContents.places (h : SameContents f g n) : g.places n = f.places n :=
  congrArg (·.getD []) (h.read Node.places fun _ => rfl)

/-- What has the same frame and the same places differs in its link at most. -/
theorem SameFrame.sameContents (h : SameFrame f g n) (hplaces : g.places n = f.places n) :
    SameContents f g n := by
  unfold SameFrame at h
  unfold Forest.places at hplaces
  unfold SameContents
  cases hf : f.node? n with
  | none =>
    rw [hf, Option.map_none, Option.map_eq_none_iff] at h
    rw [h]
  | some node =>
    obtain ⟨node', hg, hframe⟩ := Option.map_eq_some_iff.1 (h.trans (by rw [hf, Option.map_some]))
    rw [hf, hg, Option.map_some, Option.map_some, Option.getD_some, Option.getD_some] at hplaces
    have hunlinked : { node' with parent? := none } = { node with parent? := none } :=
      Node.eq_of_frame (by rw [node'.frame_unlinked, node.frame_unlinked, hframe]) hplaces rfl
    rw [hg, Option.map_some, Option.map_some]
    exact congrArg some (congrArg (fun m : Node => { m with callers := 0 }) hunlinked)

end Frame

/-- A forest is determined by the frames, the places and the links of its nodes. -/
theorem eq_of_frame (hsize : g.nodes.size = f.nodes.size) (hframe : ∀ n, SameFrame f g n)
    (hplaces : ∀ n, g.places n = f.places n) (hparent : ∀ n, g.parent? n = f.parent? n) :
    g = f := by
  refine eq_of_node? hsize fun n => ?_
  have hn := hframe n
  have hplaces := hplaces n
  have hparent := hparent n
  unfold SameFrame at hn
  unfold places at hplaces
  unfold Forest.parent? at hparent
  cases hf : f.node? n with
  | none =>
    rw [hf, Option.map_none, Option.map_eq_none_iff] at hn
    exact hn
  | some node =>
    obtain ⟨node', hg, hnode⟩ := Option.map_eq_some_iff.1 (hn.trans (by rw [hf, Option.map_some]))
    rw [hf, hg, Option.map_some, Option.map_some, Option.getD_some, Option.getD_some] at hplaces
    rw [hf, hg, Option.bind_some, Option.bind_some] at hparent
    rw [hg, Node.eq_of_frame hnode hplaces hparent]

end Forest

end NodeForest
