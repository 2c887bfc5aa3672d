import NodeForest.Proofs.ChildReplacement

set_option autoImplicit false

/-! # What a node keeps for life

The kind of a node and the names of its slots are settled when it is made, and no edit changes them:
an edit puts other occupants into slots that are there. So in every reachable forest the slots of a
node are named as its kind has them. -/

namespace NodeForest

/-- The kind of the node and the names of its slots, in order. -/
def Node.outline (n : Node) : Kind × List String :=
  (n.kind, n.slots.map Slot.name)

theorem Node.outline_fresh (spec : NodeSpec) :
    (Node.fresh spec).outline = (spec.kind, spec.kind.slots) := by
  simp [outline, fresh, Function.comp_def]

theorem Node.outline_setSlot (n : Node) (i : Nat) (value : Option NodeId) :
    (n.setSlot i value).outline = n.outline := by
  refine Prod.ext rfl (List.ext_getElem? fun j => ?_)
  simp only [outline, setSlot, List.getElem?_map, List.getElem?_modify]
  cases n.slots[j]? with
  | none => rfl
  | some slot =>
    simp only [Option.map_eq_map, Option.map_some]
    split <;> rfl

theorem Node.outline_frame (n : Node) : n.frame.outline = n.outline := by
  unfold frame outline
  cases n.items? with
  | some items => rfl
  | none => simp [Function.comp_def]

namespace Forest

variable {f g h : Forest} {n owner list : NodeId} {e : Edit}

/-- `n` is of the same kind in `f` and `g`, and its slots have the same names. -/
def SameOutline (f g : Forest) (n : NodeId) : Prop :=
  (g.node? n).map Node.outline = (f.node? n).map Node.outline

theorem SameOutline.trans (hfg : SameOutline f g n) (hgh : SameOutline g h n) :
    SameOutline f h n :=
  Eq.trans hgh hfg

theorem SameContents.sameOutline (h : SameContents f g n) : SameOutline f g n :=
  h.read Node.outline fun _ => rfl

theorem SameFrame.sameOutline (h : SameFrame f g n) : SameOutline f g n :=
  h.read Node.outline Node.outline_frame

/-! ## Edits -/

theorem sameOutline_fillSlot (f : Forest) (owner : NodeId) (i : Nat) (value : Option NodeId)
    (n : NodeId) : SameOutline f (f.fillSlot owner i value).2 n := by
  have hstored : SameOutline f (f.storeSlot owner i value) n :=
    map_modify f owner _ Node.outline (fun node => node.outline_setSlot i value) n
  rw [fillSlot_eq]
  exact hstored.trans (sameContents_handOver ..).sameOutline

theorem sameOutline_setItems (f : Forest) (list : NodeId) (items : List (Option NodeId))
    (n : NodeId) : SameOutline f (f.setItems list items) n :=
  map_modify f list (·.setItems items) Node.outline (fun _ => rfl) n

theorem sameOutline_push (f : Forest) (list : NodeId) (child : Option NodeId) (n : NodeId) :
    SameOutline f (f.push list child) n := by
  rw [push_eq]
  exact (sameOutline_setItems ..).trans (sameContents_handOver ..).sameOutline

theorem sameOutline_foldl_push (f : Forest) (list : NodeId) (nodes : List NodeId) (n : NodeId) :
    SameOutline f (nodes.foldl (fun g child => g.push list (some child)) f) n := by
  induction nodes generalizing f with
  | nil => rfl
  | cons child rest ih => exact (sameOutline_push f list (some child) n).trans (ih _)

theorem sameOutline_removeItem (f : Forest) (list child n : NodeId) :
    SameOutline f (f.removeItem list child).forest n := by
  unfold removeItem
  cases f.position? list child with
  | none => rfl
  | some i =>
    simp only [releaseFromItems_eq]
    exact (sameOutline_setItems ..).trans (sameContents_handOver ..).sameOutline

theorem sameOutline_setChild (f : Forest) (owner : NodeId) (name : String) (value : Option NodeId)
    (n : NodeId) : SameOutline f (f.setChild owner name value).forest n := by
  unfold setChild
  cases Slot.index? (f.slots owner) name with
  | none => rfl
  | some i => exact sameOutline_fillSlot f owner i value n

theorem sameOutline_replaceChild (f : Forest) (owner old new n : NodeId) :
    SameOutline f (f.replaceChild owner old new).forest n := by
  rcases replaceChild_cases f owner old new with ⟨-, -, hforest⟩ | ⟨-, r, hok, -⟩
  · rw [hforest]
    rfl
  · exact ((childReplaced_of_result_eq_ok hok).2.2.frame n).sameOutline

theorem sameOutline_replace (f : Forest) (old new n : NodeId) :
    SameOutline f (f.replace old new).forest n := by
  unfold replace
  split
  · exact sameOutline_replaceChild ..
  · rfl

/-- What an edit has done once it has created the node that it makes, if it makes one, changes no
    outline. -/
theorem sameOutline_perform (f : Forest) (e : Edit) :
    (∀ n, SameOutline f (f.perform e).forest n)
      ∨ ∃ spec, ∀ n, SameOutline (f.insert (Node.fresh spec)).2 (f.perform e).forest n := by
  rcases perform_cases f e with ⟨refusal, hperform⟩ | ⟨-, -, hperform⟩
  · rw [hperform]
    exact Or.inl fun _ => rfl
  · rw [hperform]
    cases e with
    | create spec => exact Or.inr ⟨spec, fun _ => rfl⟩
    | gather spec nodes => exact Or.inr ⟨_, sameOutline_foldl_push _ _ nodes⟩
    | retain m => exact Or.inl fun n => (sameContents_countCallers f m _ n).sameOutline
    | letGo m => exact Or.inl fun n => (sameContents_countCallers f m _ n).sameOutline
    | fillSlot owner i value =>
      refine Or.inl fun n => ?_
      rw [carryOut]
      split
      · exact sameOutline_fillSlot f owner i value n
      · rfl
    | setChild owner name value => exact Or.inl (sameOutline_setChild f owner name value)
    | push list child => exact Or.inl (sameOutline_push f list child)
    | removeItem list child => exact Or.inl (sameOutline_removeItem f list child)
    | replaceChild owner old new => exact Or.inl (sameOutline_replaceChild f owner old new)
    | replace old new => exact Or.inl (sameOutline_replace f old new)

/-! ## Runs -/

/-- A node that existed before an edit and is alive after it was alive before, and keeps its
    outline. -/
theorem sameOutline_run (hn : n < f.nodes.size) (hlive : (f.run e).forest.isLive n) :
    f.isLive n ∧ SameOutline f (f.run e).forest n := by
  have hbefore := ((moves_run_any f e).survivor hn hlive).1
  refine ⟨hbefore, SameOutline.trans ?_ (sameContents_reclaim hlive).sameOutline⟩
  rcases sameOutline_perform f e with hsame | ⟨spec, hsame⟩
  · exact hsame n
  · exact (sameContents_insert f _ (Nat.ne_of_lt hn)).sameOutline.trans (hsame n)

theorem sameOutline_runAll {edits : List Edit} (hn : n < f.nodes.size)
    (hlive : (f.runAll edits).isLive n) : f.isLive n ∧ SameOutline f (f.runAll edits) n := by
  induction edits generalizing f with
  | nil => exact ⟨hlive, rfl⟩
  | cons e rest ih =>
    have hsize := (moves_run_any f e).size_le
    obtain ⟨hmiddle, hrest⟩ := ih (Nat.lt_of_lt_of_le hn hsize) hlive
    obtain ⟨hfirst, hsame⟩ := sameOutline_run hn hmiddle
    exact ⟨hfirst, hsame.trans hrest⟩

/-! ## The law -/

/-- The slots of every node are named as its kind has them. -/
def SlotsNamed (f : Forest) : Prop :=
  ∀ n outline, (f.node? n).map Node.outline = some outline → outline.2 = outline.1.slots

theorem SlotsNamed.of_sameOutline (hf : SlotsNamed f)
    (hsame : ∀ n, g.isLive n → SameOutline f g n) : SlotsNamed g := by
  intro n outline houtline
  have hlive : g.isLive n := by
    simpa [isLive] using congrArg Option.isSome houtline
  exact hf n outline ((hsame n hlive).symm.trans houtline)

theorem slotsNamed_empty : SlotsNamed empty := by
  intro n outline houtline
  simp at houtline

theorem SlotsNamed.insert_fresh (hf : SlotsNamed f) (spec : NodeSpec) :
    SlotsNamed (f.insert (Node.fresh spec)).2 := by
  intro n outline houtline
  rw [node?_insert] at houtline
  by_cases hn : n = f.nodes.size
  · rw [if_pos hn, Option.map_some, Node.outline_fresh] at houtline
    obtain rfl := Option.some.inj houtline
    rfl
  · rw [if_neg hn] at houtline
    exact hf n outline houtline

theorem Reachable.slotsNamed (hf : Reachable f) : SlotsNamed f := by
  induction hf with
  | start => exact slotsNamed_empty
  | @run f e _ ih =>
    have hperform : SlotsNamed (f.perform e).forest := by
      rcases sameOutline_perform f e with hsame | ⟨spec, hsame⟩
      · exact ih.of_sameOutline fun n _ => hsame n
      · exact (ih.insert_fresh spec).of_sameOutline fun n _ => hsame n
    exact hperform.of_sameOutline fun n hlive => (sameContents_reclaim hlive).sameOutline

/-! ## Readings -/

theorem SameOutline.kind? (h : SameOutline f g n) : g.kind? n = f.kind? n := by
  simpa [Forest.kind?, Node.outline, Function.comp_def] using congrArg (Option.map Prod.fst) h

/-- The slots of a node are named as its kind has them. -/
theorem SlotsNamed.map_name (hf : SlotsNamed f) {k : Kind} (hkind : f.kind? n = some k) :
    (f.slots n).map Slot.name = k.slots := by
  obtain ⟨node, hnode, rfl⟩ := Option.map_eq_some_iff.1 hkind
  have hnamed := hf n node.outline (by rw [hnode, Option.map_some])
  rw [slots, hnode]
  exact hnamed

end Forest

end NodeForest
