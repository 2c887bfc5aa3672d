import NodeForest.Edit

set_option autoImplicit false

/-! # Runs and their histories

A forest is reachable if some sequence of edits, each of which may fail, leads to it from the empty
forest. A run remembers besides who took in which node. Its history is read off the edits and their
answers, not off the links they leave. -/

namespace NodeForest

/-- `owner` has adopted `child`. -/
structure Adoption where
  owner : NodeId
  child : NodeId
  /-- The list out of which a splice has moved the child; absent where the caller put the child
      itself in its place. -/
  source? : Option NodeId
  deriving DecidableEq

/-- The node that adopted `n` last, in a history that begins with the oldest adoption. -/
def lastAdopter (history : List Adoption) (n : NodeId) : Option NodeId :=
  (history.reverse.find? (·.child == n)).map (·.owner)

/-- What the edit makes a node of, if it makes one. -/
def Edit.created? : Edit → Option NodeSpec
  | .create spec => some spec
  | .gather spec _ => some { spec with isList := true }
  | _ => none

/-- What a node that is made so holds as a list, it does not hold in slots. -/
def NodeSpec.SlotlessIfList (spec : NodeSpec) : Prop :=
  spec.isList → spec.kind.slots = []

instance (spec : NodeSpec) : Decidable spec.SlotlessIfList :=
  inferInstanceAs (Decidable (spec.isList → spec.kind.slots = []))

namespace Forest

/-- The adoptions by `owner` when it has replaced a child by `new`. -/
def replacementAdoptions (f : Forest) (owner new : NodeId) : Replacement → List Adoption
  | .single n => [⟨owner, n, none⟩]
  | .spliced _ => ((f.items new).filterMap id).map fun n => ⟨owner, n, some new⟩

/-- The adoptions of an edit that succeeds. -/
def adoptionsOf (f : Forest) : Edit → Answer → List Adoption
  | .gather _ nodes, _ => nodes.map fun n => ⟨f.nodes.size, n, none⟩
  | .fillSlot owner _ value, _ => value.toList.map fun n => ⟨owner, n, none⟩
  | .setChild owner _ value, _ => value.toList.map fun n => ⟨owner, n, none⟩
  | .push list child, _ => child.toList.map fun n => ⟨list, n, none⟩
  | .replaceChild owner _ new, .replaced r => f.replacementAdoptions owner new r
  | .replace n new, .replaced r =>
    (f.parent? n).elim [] fun owner => f.replacementAdoptions owner new r
  | _, _ => []

/-- The adoptions that an edit makes. One that fails makes none. -/
def adoptions (f : Forest) (e : Edit) : List Adoption :=
  match (f.perform e).result with
  | .ok answer => f.adoptionsOf e answer
  | .error _ => []

/-- The forests that any sequence of edits leads to. -/
inductive Reachable : Forest → Prop
  | start : Reachable empty
  | run {f : Forest} (e : Edit) : Reachable f → Reachable (f.run e).forest

/-- The forest after a list of edits. -/
def runAll (f : Forest) (edits : List Edit) : Forest :=
  edits.foldl (fun f e => (f.run e).forest) f

theorem Reachable.runAll {f : Forest} (h : Reachable f) (edits : List Edit) :
    Reachable (f.runAll edits) := by
  induction edits generalizing f with
  | nil => exact h
  | cons e rest ih => exact ih (.run e h)

/-- `Run permitted f history`: permitted edits have led from the empty forest to `f`, and have made
    the adoptions `history`, the oldest first. -/
inductive Run (permitted : Forest → Edit → Prop) : Forest → List Adoption → Prop
  | start : Run permitted empty []
  | edit {f : Forest} {history : List Adoption} (e : Edit) : Run permitted f history →
      permitted f e → Run permitted (f.run e).forest (history ++ f.adoptions e)

/-- Each of the edits is permitted when its turn comes. -/
def PermittedAll (permitted : Forest → Edit → Prop) : Forest → List Edit → Prop
  | _, [] => True
  | f, e :: rest => permitted f e ∧ PermittedAll permitted (f.run e).forest rest

instance PermittedAll.decidable (permitted : Forest → Edit → Prop)
    [∀ f e, Decidable (permitted f e)] :
    (f : Forest) → (edits : List Edit) → Decidable (PermittedAll permitted f edits)
  | _, [] => isTrue trivial
  | f, e :: rest =>
    have := PermittedAll.decidable permitted (f.run e).forest rest
    inferInstanceAs (Decidable (permitted f e ∧ PermittedAll permitted (f.run e).forest rest))

/-- The adoptions that a list of edits makes. -/
def historyOf : Forest → List Edit → List Adoption
  | _, [] => []
  | f, e :: rest => f.adoptions e ++ historyOf (f.run e).forest rest

theorem Run.runAll {permitted : Forest → Edit → Prop} {f : Forest} {history : List Adoption}
    (h : Run permitted f history) {edits : List Edit} (hedits : PermittedAll permitted f edits) :
    Run permitted (f.runAll edits) (history ++ f.historyOf edits) := by
  induction edits generalizing f history with
  | nil =>
    rw [historyOf, List.append_nil]
    exact h
  | cons e rest ih =>
    rw [historyOf, ← List.append_assoc]
    exact ih (.edit e h hedits.1) hedits.2

theorem Run.reachable {permitted : Forest → Edit → Prop} {f : Forest} {history : List Adoption}
    (h : Run permitted f history) : Reachable f := by
  induction h with
  | start => exact .start
  | edit e _ _ ih => exact .run e ih

/-- Fewer edits permitted, fewer runs. -/
theorem Run.mono {permitted permitted' : Forest → Edit → Prop} {f : Forest}
    {history : List Adoption} (h : Run permitted f history)
    (himp : ∀ f e, permitted f e → permitted' f e) : Run permitted' f history := by
  induction h with
  | start => exact .start
  | edit e _ he ih => exact .edit e ih (himp _ e he)

end Forest

theorem eq_ok_of_toOption {ε α : Type} {result : Except ε α} {a : α}
    (h : result.toOption = some a) : result = .ok a := by
  cases result with
  | ok b => exact congrArg Except.ok (Option.some.inj h)
  | error _ => cases h

/-! ## The last adopter of a growing history -/

/-- The adoptions in which one owner takes in several nodes, read as the nodes. -/
theorem mem_map_child {owner n : NodeId} {source? : Option NodeId} {nodes : List NodeId} :
    n ∈ (nodes.map fun n => (⟨owner, n, source?⟩ : Adoption)).map (·.child) ↔ n ∈ nodes := by
  simp

theorem lastAdopter_append_of_mem {nodes : List NodeId} {n : NodeId} (h : n ∈ nodes)
    (history : List Adoption) (owner : NodeId) (source? : Option NodeId) :
    lastAdopter (history ++ nodes.map fun n => ⟨owner, n, source?⟩) n = some owner := by
  have hfound : ((nodes.map fun n => (⟨owner, n, source?⟩ : Adoption)).reverse.find?
      (·.child == n)).isSome :=
    List.find?_isSome.2
      ⟨_, List.mem_reverse.2 (List.mem_map.2 ⟨n, h, rfl⟩), beq_self_eq_true n⟩
  obtain ⟨a, ha⟩ := Option.isSome_iff_exists.1 hfound
  obtain ⟨m, -, rfl⟩ := List.mem_map.1 (List.mem_reverse.1 (List.mem_of_find?_eq_some ha))
  rw [lastAdopter, List.reverse_append, List.find?_append, ha, Option.some_or, Option.map_some]

theorem lastAdopter_append_of_not_mem {later : List Adoption} {n : NodeId}
    (h : n ∉ later.map (·.child)) (history : List Adoption) :
    lastAdopter (history ++ later) n = lastAdopter history n := by
  have hnone : later.reverse.find? (·.child == n) = none := by
    rw [List.find?_eq_none]
    intro a ha heq
    exact h (List.mem_map.2 ⟨a, List.mem_reverse.1 ha, beq_iff_eq.1 heq⟩)
  rw [lastAdopter, List.reverse_append, List.find?_append, hnone, Option.none_or, lastAdopter]

end NodeForest
