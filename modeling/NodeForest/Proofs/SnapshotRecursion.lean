import NodeForest.Forest.Snapshot
import NodeForest.Proofs.Reach

set_option autoImplicit false

/-! # The recursion behind snapshots

The snapshot of a node is made of those of its children (`snapshot?_eq`), with no bound on the
depth: the bound that `Forest.snapshot?` starts from is never too small. A node has a snapshot
exactly if it is alive and no walk from it comes to a circle, and then the snapshot depends on
nothing but what walks from it visit. -/

namespace NodeForest

/-! ## Rows of options -/

section Rows

variable {α β : Type} {φ ψ : α → Option β} {row : List α}

theorem mapM_eq_some {shown : List β} : row.mapM φ = some shown ↔ row.map φ = shown.map some := by
  induction row generalizing shown with
  | nil => cases shown <;> simp
  | cons a rest ih =>
    rw [List.mapM_cons]
    cases shown with
    | nil => simp [Option.bind_eq_some_iff]
    | cons b more => simp [Option.bind_eq_some_iff, ← ih]

theorem isSome_mapM : (row.mapM φ).isSome ↔ ∀ a ∈ row, (φ a).isSome := by
  induction row with
  | nil => simp
  | cons a rest ih =>
    rw [List.forall_mem_cons, ← ih, List.mapM_cons]
    cases φ a with
    | none => simp
    | some b => cases h : rest.mapM φ <;> simp

theorem mapM_congr (h : ∀ a ∈ row, φ a = ψ a) : row.mapM φ = row.mapM ψ := by
  refine Option.ext fun shown => ?_
  rw [mapM_eq_some, mapM_eq_some, List.map_congr_left h]

end Rows

namespace Node

/-- The snapshot of a node that shows `shown` in its places. -/
def portray (n : Node) (shown : List (Option Snapshot)) : Snapshot :=
  match n.items? with
  | some _ => .list n.kind.name shown
  | none => .node n.kind.name (n.slots.zipWith (fun s child => ⟨s.name, child⟩) shown)

theorem portray_of_some {n : Node} {items : List (Option NodeId)} (h : n.items? = some items) :
    n.portray = .list n.kind.name := by
  funext shown
  rw [portray, h]

theorem portray_of_none {n : Node} (h : n.items? = none) :
    n.portray = fun shown =>
      .node n.kind.name (n.slots.zipWith (fun s child => ⟨s.name, child⟩) shown) := by
  funext shown
  rw [portray, h]

end Node

namespace Forest

variable {f g : Forest} {n m : NodeId} {node : Node}

theorem stepsTo_iff (h : f.node? n = some node) : f.StepsTo n m ↔ some m ∈ node.places := by
  rw [StepsTo, mem_children, places, h]
  rfl

theorem mapM_snapshotOfSlot (ofNode : NodeId → Option Snapshot) (slots : List (Slot NodeId)) :
    slots.mapM (snapshotOfSlot ofNode)
      = ((slots.map Slot.occupant).mapM (snapshotOfPlace ofNode)).map
          (slots.zipWith fun s child => ⟨s.name, child⟩) := by
  induction slots with
  | nil => rfl
  | cons s rest ih =>
    rw [List.map_cons, List.mapM_cons, List.mapM_cons, ih, snapshotOfSlot]
    cases snapshotOfPlace ofNode s.occupant with
    | none => rfl
    | some child =>
      cases (rest.map Slot.occupant).mapM (snapshotOfPlace ofNode) with
      | none => rfl
      | some shown => rfl

/-- One step of the descent. -/
theorem snapshotWithin_succ (f : Forest) (depth : Nat) (n : NodeId) :
    f.snapshotWithin (depth + 1) n = (f.node? n).bind fun node =>
      (node.places.mapM (snapshotOfPlace (f.snapshotWithin depth))).map node.portray := by
  rw [snapshotWithin]
  cases f.node? n with
  | none => rfl
  | some node =>
    cases hitems : node.items? with
    | some items => simp [Node.places, Node.portray_of_some hitems, hitems]
    | none =>
      simp only [Option.bind_some, Node.places, Node.portray_of_none hitems, hitems,
        mapM_snapshotOfSlot, Option.map_map]
      rfl

theorem mapM_snapshotOfPlace_congr {ofNode ofNode' : NodeId → Option Snapshot}
    {places : List (Option NodeId)} (h : ∀ m, some m ∈ places → ofNode m = ofNode' m) :
    places.mapM (snapshotOfPlace ofNode) = places.mapM (snapshotOfPlace ofNode') := by
  refine mapM_congr fun place hplace => ?_
  cases place with
  | none => rfl
  | some m => exact congrArg (Option.map some) (h m hplace)

theorem isSome_mapM_snapshotOfPlace {ofNode : NodeId → Option Snapshot}
    {places : List (Option NodeId)} :
    (places.mapM (snapshotOfPlace ofNode)).isSome ↔ ∀ m, some m ∈ places → (ofNode m).isSome := by
  rw [isSome_mapM]
  constructor
  · intro h m hm
    simpa [snapshotOfPlace] using h (some m) hm
  · intro h place hplace
    cases place with
    | none => rfl
    | some m => simpa [snapshotOfPlace] using h m hplace

/-! ## The depth is no bound -/

/-- A snapshot within some depth has the snapshots of the children in it. -/
theorem isSome_snapshotWithin_succ {depth : Nat} :
    (f.snapshotWithin (depth + 1) n).isSome ↔
      f.isLive n ∧ ∀ m, f.StepsTo n m → (f.snapshotWithin depth m).isSome := by
  rw [snapshotWithin_succ, isLive]
  cases hnode : f.node? n with
  | none => simp
  | some node =>
    rw [Option.bind_some, Option.isSome_map, isSome_mapM_snapshotOfPlace]
    simp [stepsTo_iff hnode]

open Relation in
theorem unwinds_of_isSome_snapshotWithin {depth : Nat}
    (h : (f.snapshotWithin depth n).isSome) : f.Unwinds n := by
  induction depth generalizing n with
  | zero => cases h
  | succ depth ih =>
    have hchildren := (isSome_snapshotWithin_succ.1 h).2
    intro m hm hcircle
    rcases hm.cases_head with rfl | ⟨c, hc, hpath⟩
    · -- A circle through the top goes through a child, which walks back to the top.
      obtain ⟨c, hc, hback⟩ := TransGen.head'_iff.1 hcircle
      exact ih (hchildren c hc) n hback hcircle
    · exact ih (hchildren c hc) m hpath hcircle

theorem isLive_of_isSome_snapshotWithin {depth : Nat} (h : (f.snapshotWithin depth n).isSome) :
    f.isLive n := by
  cases depth with
  | zero => cases h
  | succ depth => exact (isSome_snapshotWithin_succ.1 h).1

/-- A depth that exceeds the number of nodes ahead is as good as any other. -/
theorem snapshotWithin_eq {depth depth' : Nat} (h : (f.snapshotWithin depth n).isSome)
    (hdepth : (ahead f.StepsTo f.nodes.size n).card < depth') :
    f.snapshotWithin depth' n = f.snapshotWithin depth n := by
  induction depth' generalizing depth n with
  | zero => cases hdepth
  | succ depth' ih =>
    cases depth with
    | zero => cases h
    | succ depth =>
      have hchildren := (isSome_snapshotWithin_succ.1 h).2
      rw [snapshotWithin_succ, snapshotWithin_succ]
      cases hnode : f.node? n with
      | none => rfl
      | some node =>
        rw [Option.bind_some, Option.bind_some]
        refine congrArg (Option.map node.portray) (mapM_snapshotOfPlace_congr fun m hm => ?_)
        have hstep := (stepsTo_iff hnode).2 hm
        have hsome := hchildren m hstep
        have hlive := isLive_of_isSome_snapshotWithin hsome
        have hcloser := card_ahead_lt hstep (lt_size_of_isLive hlive)
          (unwinds_of_isSome_snapshotWithin hsome m .refl)
        exact ih hsome (by omega)

theorem snapshotWithin_eq_snapshot? {depth : Nat} (h : (f.snapshotWithin depth n).isSome) :
    f.snapshot? n = f.snapshotWithin depth n :=
  snapshotWithin_eq h (card_ahead_lt_bound (lt_size_of_isLive (isLive_of_isSome_snapshotWithin h))
    (unwinds_of_isSome_snapshotWithin h n .refl))

/-- A snapshot is made of those of what stands in the places. -/
theorem snapshot?_eq (f : Forest) (n : NodeId) :
    f.snapshot? n = (f.node? n).bind fun node =>
      (node.places.mapM (snapshotOfPlace f.snapshot?)).map node.portray := by
  have hdeeper : f.snapshotWithin (f.nodes.size + 1) n = f.snapshot? n := by
    by_cases h : (f.snapshotWithin (f.nodes.size + 1) n).isSome
    · exact (snapshotWithin_eq_snapshot? h).symm
    · by_cases h' : (f.snapshot? n).isSome
      · have hbound := card_ahead_lt_bound
          (lt_size_of_isLive (isLive_of_isSome_snapshotWithin h'))
          (unwinds_of_isSome_snapshotWithin h' n .refl)
        exact snapshotWithin_eq h' (Nat.lt_succ_of_lt hbound)
      · rw [Option.not_isSome_iff_eq_none.1 h, Option.not_isSome_iff_eq_none.1 h']
  rw [← hdeeper, snapshotWithin_succ]
  rfl

/-- Every live node has a snapshot from which no walk comes to a circle, and no other node. -/
theorem isSome_snapshot?_iff (hf : HeldAlive f) :
    (f.snapshot? n).isSome ↔ f.isLive n ∧ f.Unwinds n := by
  constructor
  · intro h
    exact ⟨isLive_of_isSome_snapshotWithin h, unwinds_of_isSome_snapshotWithin h⟩
  · rintro ⟨hn, hunwinds⟩
    have hbound := card_ahead_lt_bound (lt_size_of_isLive hn) (hunwinds n .refl)
    suffices h : ∀ depth n, f.isLive n → f.Unwinds n →
        (ahead f.StepsTo f.nodes.size n).card < depth → (f.snapshotWithin depth n).isSome from
      h _ n hn hunwinds hbound
    intro depth
    induction depth with
    | zero => exact fun _ _ _ hdepth => absurd hdepth (Nat.not_lt_zero _)
    | succ depth ih =>
      intro n hn hunwinds hdepth
      refine isSome_snapshotWithin_succ.2 ⟨hn, fun m hm => ?_⟩
      have hlive := hf n m hm.holds
      have hbelow := hunwinds.of_visits (.single hm)
      have hcloser := card_ahead_lt hm (lt_size_of_isLive hlive) (hbelow m .refl)
      exact ih m hlive hbelow (by omega)

/-- Where no walk comes to a circle, every walk comes to an end. -/
theorem Unwinds.acc (hf : HeldAlive f) (h : f.Unwinds n) : Acc (fun m p => f.StepsTo p m) n := by
  induction hcard : (ahead f.StepsTo f.nodes.size n).card using Nat.strong_induction_on
    generalizing n with
  | _ card ih =>
    refine Acc.intro n fun m hm => ?_
    have hbelow := h.of_visits (.single hm)
    have hcloser := card_ahead_lt hm (lt_size_of_isLive (hf n m hm.holds)) (hbelow m .refl)
    exact ih _ (hcard ▸ hcloser) hbelow rfl

/-! ## What a snapshot depends on -/

theorem snapshotWithin_congr (hsame : ∀ m, f.Visits n m → SameContents f g m) (depth : Nat) :
    g.snapshotWithin depth n = f.snapshotWithin depth n := by
  induction depth generalizing n with
  | zero => rfl
  | succ depth ih =>
    rw [snapshotWithin_succ, snapshotWithin_succ, (hsame n .refl).bind _ fun _ => rfl]
    cases hnode : f.node? n with
    | none => rfl
    | some node =>
      rw [Option.bind_some, Option.bind_some]
      refine congrArg (Option.map node.portray) (mapM_snapshotOfPlace_congr fun m hm => ?_)
      have hstep := (stepsTo_iff hnode).2 hm
      exact ih fun m' hm' => hsame m' (.head hstep hm')

/-- Forests that agree on everything a walk visits show the same snapshot. -/
theorem snapshot?_congr (hsize : g.nodes.size = f.nodes.size)
    (hsame : ∀ m, f.Visits n m → SameContents f g m) : g.snapshot? n = f.snapshot? n := by
  unfold snapshot?
  rw [hsize]
  exact snapshotWithin_congr hsame _

/-- A snapshot is shown by every forest that agrees on what a walk visits, also if nodes have been
    created. -/
theorem snapshot?_eq_some_of_same {s : Snapshot} (hs : f.snapshot? n = some s)
    (hsame : ∀ m, f.Visits n m → SameContents f g m) : g.snapshot? n = some s := by
  have hwithin := (snapshotWithin_congr hsame f.nodes.size).trans hs
  rw [snapshotWithin_eq_snapshot? (Option.isSome_of_eq_some hwithin), hwithin]

/-- Reclaiming does not change the snapshot of a node that survives it. -/
theorem snapshot?_reclaim (hf : HeldAlive f.reclaim) (h : f.reclaim.isLive n) :
    f.reclaim.snapshot? n = f.snapshot? n := by
  refine snapshot?_congr (size_reclaim f) fun m hm => sameContents_reclaim ?_
  induction hm with
  | refl => exact h
  | tail _ hstep ih => exact hf _ _ (holds_reclaim hstep.holds ih)

end Forest

end NodeForest
