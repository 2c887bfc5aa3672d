import NodeForest.Proofs.Acyclicity
import NodeForest.Proofs.ChildReplacement

set_option autoImplicit false

/-! # What an edit leaves untouched

An edit changes the places of one owner, and of the list that this owner takes apart if it splices.
Every other node keeps its contents, whatever becomes of its link: also a node that is installed, is
displaced or moves. So the snapshot of a node stays the same if no walk from it comes to a node that
the edit touches. -/

namespace NodeForest.Forest

open Relation

/-- The nodes whose places change when `owner` has replaced a child by `new`. -/
def touchedByReplacement (owner new : NodeId) : Replacement → List NodeId
  | .single _ => [owner]
  | .spliced _ => [owner, new]

/-- The nodes whose places change through an edit that succeeds, those apart that it creates. -/
def touchedBy (f : Forest) : Edit → Answer → List NodeId
  | .fillSlot owner _ _, _ | .setChild owner _ _, _ => [owner]
  | .push list _, _ | .removeItem list _, _ => [list]
  | .replaceChild owner _ new, .replaced r => touchedByReplacement owner new r
  | .replace n new, .replaced r =>
    (f.parent? n).elim [] fun owner => touchedByReplacement owner new r
  | _, _ => []

/-- The nodes whose places an edit changes. One that fails changes none. -/
def touched (f : Forest) (e : Edit) : List NodeId :=
  match (f.perform e).result with
  | .ok answer => f.touchedBy e answer
  | .error _ => []

variable {f g : Forest} {e : Edit} {n m root owner list : NodeId}

/-! ## Contents -/

theorem sameContents_fillSlot_of_ne (i : Nat) (value : Option NodeId) (hn : n ≠ owner) :
    SameContents f (f.fillSlot owner i value).2 n := by
  rw [fillSlot_eq]
  exact (sameContents_handOver ..).trans (sameContents_modify_of_ne f _ hn)

theorem sameContents_push_of_ne (child : Option NodeId) (hn : n ≠ list) :
    SameContents f (f.push list child) n := by
  rw [push_eq]
  exact (sameContents_handOver ..).trans (sameContents_setItems_of_ne f _ hn)

theorem sameContents_foldl_push_of_ne (nodes : List NodeId) (hn : n ≠ list) :
    SameContents f (nodes.foldl (fun g child => g.push list (some child)) f) n := by
  induction nodes generalizing f with
  | nil => rfl
  | cons child rest ih => exact (ih (f := f.push list (some child))).trans (sameContents_push_of_ne _ hn)

theorem sameContents_removeItem_of_ne (child : NodeId) (hn : n ≠ list) :
    SameContents f (f.removeItem list child).forest n := by
  unfold removeItem
  cases f.position? list child with
  | none => rfl
  | some i =>
    simp only [releaseFromItems_eq]
    exact (sameContents_handOver ..).trans (sameContents_setItems_of_ne f _ hn)

theorem sameContents_setChild_of_ne (name : String) (value : Option NodeId) (hn : n ≠ owner) :
    SameContents f (f.setChild owner name value).forest n := by
  unfold setChild
  cases Slot.index? (f.slots owner) name with
  | none => rfl
  | some i => exact sameContents_fillSlot_of_ne i value hn

/-- A replacement leaves alone what is neither its owner nor taken apart. -/
theorem AsksToReplace.sameContents {old new : NodeId} (hask : f.AsksToReplace e owner old new)
    {r : Replacement} (hok : (f.perform e).result = .ok (.replaced r))
    (houter : n ∉ touchedByReplacement owner new r) : SameContents f (f.perform e).forest n := by
  obtain ⟨-, hr, h⟩ := hask.childReplaced hok
  obtain rfl := Answer.replaced.inj hr
  unfold replacementBy at houter
  by_cases hsplices : f.Splices owner new
  · rw [if_pos hsplices] at houter
    simp only [touchedByReplacement, List.mem_cons, List.not_mem_nil, or_false, not_or] at houter
    exact h.sameContents houter.1 fun hsource => houter.2 hsource.1
  · rw [if_neg hsplices] at houter
    exact h.sameContents (mt List.mem_singleton.2 houter) fun hsource => hsplices hsource.2

/-- A node that is not touched keeps its contents. -/
theorem sameContents_perform (hn : f.isLive n) (houter : n ∉ f.touched e) :
    SameContents f (f.perform e).forest n := by
  cases hok : (f.perform e).result with
  | error refusal =>
    rw [(f.atomic_perform e refusal hok).1]
    rfl
  | ok answer =>
    have hfresh : n ≠ f.nodes.size := Nat.ne_of_lt (lt_size_of_isLive hn)
    rw [touched, hok] at houter
    have hreplaced : ∀ {owner old new}, f.AsksToReplace e owner old new →
        (∀ r, answer = .replaced r → n ∉ touchedByReplacement owner new r) →
        SameContents f (f.perform e).forest n := by
      intro owner old new hask houter
      obtain ⟨-, rfl, -⟩ := hask.childReplaced hok
      exact hask.sameContents hok (houter _ rfl)
    have hperform := perform_eq_of_result_eq_ok hok
    cases e with
    | create spec =>
      rw [hperform]
      exact sameContents_insert f _ hfresh
    | gather spec nodes =>
      rw [hperform]
      exact (sameContents_foldl_push_of_ne nodes hfresh).trans (sameContents_insert f _ hfresh)
    | retain m =>
      rw [hperform]
      exact sameContents_countCallers f m _ n
    | letGo m =>
      rw [hperform]
      exact sameContents_countCallers f m _ n
    | fillSlot owner i value =>
      rw [hperform, carryOut]
      split
      · exact sameContents_fillSlot_of_ne i value (mt List.mem_singleton.2 houter)
      · rfl
    | setChild owner name value =>
      rw [hperform]
      exact sameContents_setChild_of_ne name value (mt List.mem_singleton.2 houter)
    | push list child =>
      rw [hperform]
      exact sameContents_push_of_ne child (mt List.mem_singleton.2 houter)
    | removeItem list child =>
      rw [hperform]
      exact sameContents_removeItem_of_ne child (mt List.mem_singleton.2 houter)
    | replaceChild owner old new =>
      refine hreplaced (Or.inl rfl) ?_
      rintro r rfl
      exact houter
    | replace old new =>
      cases hparent : f.parent? old with
      | none =>
        rw [hperform, carryOut, replace_eq_noParent (Or.inl hparent)]
        rfl
      | some owner =>
        refine hreplaced (Or.inr ⟨rfl, hparent⟩) ?_
        rintro r rfl
        simpa only [touchedBy, hparent, Option.elim_some] using houter

/-- Nor does it change when the operands are let go, as long as it stays alive. -/
theorem sameContents_run (hn : f.isLive n) (houter : n ∉ f.touched e)
    (hlive : (f.run e).forest.isLive n) : SameContents f (f.run e).forest n :=
  (sameContents_reclaim hlive).trans (sameContents_perform hn houter)

/-! ## Snapshots -/

/-- Below a node that stays alive nothing is freed, and nothing changes if nothing is touched. -/
theorem Visits.isLive_run (hm : f.Visits root m) (hroot : f.isLive root) (hf : HeldAlive f)
    (hg : HeldAlive (f.run e).forest) (houter : ∀ n ∈ f.touched e, ¬ f.Visits root n)
    (hlive : (f.run e).forest.isLive root) : f.isLive m ∧ (f.run e).forest.isLive m := by
  induction hm with
  | refl => exact ⟨hroot, hlive⟩
  | tail hp hstep ih =>
    have hsame := sameContents_run ih.1 (fun hmem => houter _ hmem hp) ih.2
    exact ⟨hf _ _ hstep.holds, hg _ _ ((hsame.holds _).trans hstep.holds)⟩

/-- **Edits elsewhere do not change a snapshot.** The snapshot of a node that stays alive is the same
    after any edit that touches nothing below it, whatever the edit does with the nodes below: they
    may be installed elsewhere, be displaced from elsewhere or move from one list to another. -/
theorem Reachable.snapshot?_of_untouched (hf : Reachable f) (hroot : f.isLive root)
    (hunwinds : f.Unwinds root) (houter : ∀ n ∈ f.touched e, ¬ f.Visits root n)
    (hlive : (f.run e).forest.isLive root) :
    ∃ s, f.snapshot? root = some s
      ∧ (f.perform e).forest.snapshot? root = some s
      ∧ (f.run e).forest.snapshot? root = some s := by
  obtain ⟨s, hs⟩ :=
    Option.isSome_iff_exists.1 ((isSome_snapshot?_iff hf.heldAlive).2 ⟨hroot, hunwinds⟩)
  have hbelow : ∀ m, f.Visits root m → f.isLive m ∧ (f.run e).forest.isLive m := fun m hm =>
    hm.isLive_run hroot hf.heldAlive (hf.run e).heldAlive houter hlive
  have hnot : ∀ m, f.Visits root m → m ∉ f.touched e := fun m hm hmem => houter m hmem hm
  refine ⟨s, hs, ?_, ?_⟩
  · exact snapshot?_eq_some_of_same hs fun m hm => sameContents_perform (hbelow m hm).1 (hnot m hm)
  · exact snapshot?_eq_some_of_same hs fun m hm =>
      sameContents_run (hbelow m hm).1 (hnot m hm) (hbelow m hm).2

/-- A block holds an identifier and a node with an identifier in its slot. A second block holds the
    two identifiers as well, and a third block a third one. -/
def sharedIdentifiers : List Edit :=
  let block := Catalogue.spec Catalogue.block "" true true
  let identifier := Catalogue.spec Catalogue.identifier "x" false true
  [.create block, .create identifier, .create (Catalogue.spec Catalogue.unary "-" false true),
    .create identifier, .create block, .create block, .create identifier, .push 0 (some 1),
    .push 0 (some 2), .fillSlot 2 0 (some 3), .push 4 (some 1), .push 4 (some 3), .push 5 (some 6)]

/-- A splice moves both identifiers from the second block to the third, which is their parent then,
    and the first block shows what it has shown. -/
theorem Reachable.snapshot?_of_untouched_sharedIdentifiers :
    ((empty.runAll sharedIdentifiers).run (.replaceChild 5 6 4)).forest.parent? 3 = some 5
      ∧ ∃ s, (empty.runAll sharedIdentifiers).snapshot? 0 = some s
        ∧ ((empty.runAll sharedIdentifiers).run (.replaceChild 5 6 4)).forest.snapshot? 0
          = some s := by
  have hf := Reachable.start.runAll sharedIdentifiers
  have hranked : (empty.runAll sharedIdentifiers).RankedBy ([2, 0, 1, 0, 1, 1, 0].getD · 0) := by
    decide +kernel
  have hunwinds := (hranked.acyclic hf.heldAlive).unwinds 0
  have htouched : (empty.runAll sharedIdentifiers).touched (.replaceChild 5 6 4) = [5, 4] := by
    decide +kernel
  have houter : ∀ n ∈ (empty.runAll sharedIdentifiers).touched (.replaceChild 5 6 4),
      ¬ (empty.runAll sharedIdentifiers).Visits 0 n := by
    rw [htouched]
    intro n hn hvisits
    have hbelow : n ∈ [0, 1, 2, 3] := hvisits.mem_of_closed (by decide) (by decide +kernel)
    have hapart : ∀ n ∈ [5, 4], n ∉ [0, 1, 2, 3] := by decide
    exact hapart n hn hbelow
  obtain ⟨s, hs, -, hafter⟩ :=
    Reachable.snapshot?_of_untouched hf (by decide +kernel) hunwinds houter (by decide +kernel)
  exact ⟨by decide +kernel, s, hs, hafter⟩

end NodeForest.Forest
