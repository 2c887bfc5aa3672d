import NodeForest.Catalogue
import NodeForest.Proofs.Holding

set_option autoImplicit false

/-! # Nodes that hold themselves

A replacement refuses to make its owner its own child, but it looks at the new node only. A splice
takes the new node apart, and the owner may be among its items. That is the one way in which a
replacement makes an owner hold itself. -/

namespace NodeForest.Forest

variable {f g : Forest} {owner new : NodeId}

/-! ## Hand-over and reclaiming -/

theorem HandedOver.holds_self_iff {adopted : List NodeId} (hg : HandedOver f g owner adopted)
    (hself : ¬ f.holds owner owner) : g.holds owner owner ↔ owner ∈ adopted := by
  constructor
  · intro h
    exact (hg.gained h).resolve_left hself
  · exact hg.taken

/-- A node that holds itself is held, so it is not freed. -/
theorem holds_self_reclaim (f : Forest) (n : NodeId) : f.reclaim.holds n n ↔ f.holds n n := by
  fun_induction reclaim f with
  | case1 f _ => rfl
  | case2 f lost hlost _ ih =>
    rw [ih, holds_free_iff]
    constructor
    · intro h
      exact h.2
    · intro h
      have hne : n ≠ lost := by
        rintro rfl
        exact not_holds_of_isLost (isLost_of_firstLost? hlost) n h
      exact ⟨hne, h⟩

/-! ## Replacements -/

theorem Replaced.holds_self_iff {r : Replacement} (hr : Replaced f owner new r g)
    (hne : new ≠ owner) (hself : ¬ f.holds owner owner) :
    g.holds owner owner ↔ f.Splices owner new ∧ some owner ∈ f.items new := by
  cases hr with
  | single hnot hg =>
    rw [hg.holds_self_iff hself, List.mem_singleton]
    constructor
    · intro h
      exact absurd h.symm hne
    · intro h
      exact absurd h.1 hnot
  | spliced hsplices hg _ _ =>
    rw [hg.holds_self_iff hself, mem_filterMap_id]
    constructor
    · intro h
      exact ⟨hsplices, h⟩
    · intro h
      exact h.2

/-- **When a replacement makes its owner hold itself.** The owner then splices, and stands among the
    items it takes in. In every other case it holds itself no more than before. -/
theorem holds_self_run_iff {e : Edit} {old : NodeId} {answer : Answer}
    (hask : f.AsksToReplace e owner old new) (hself : ¬ f.holds owner owner)
    (hok : (f.run e).result = .ok answer) :
    (f.run e).forest.holds owner owner ↔ f.Splices owner new ∧ some owner ∈ f.items new := by
  obtain ⟨hne, r, -, hr⟩ := hask.replaced hok
  exact (holds_self_reclaim _ owner).trans (hr.holds_self_iff hne hself)

/-- Two blocks: the first holds an identifier, the second holds the first. -/
def nestedBlocks : List Edit :=
  let block := Catalogue.spec Catalogue.block "" true true
  [.create block, .create block, .create (Catalogue.spec Catalogue.identifier "x" false true),
    .push 0 (some 2), .push 1 (some 0)]

theorem holds_self_run_iff_nestedBlocks :
    (((empty.runAll nestedBlocks).run (.replaceChild 0 2 1)).forest.holds 0 0
        ↔ (empty.runAll nestedBlocks).Splices 0 1
          ∧ some 0 ∈ (empty.runAll nestedBlocks).items 1)
      ∧ some 0 ∈ (empty.runAll nestedBlocks).items 1 :=
  have hok : ((empty.runAll nestedBlocks).run (.replaceChild 0 2 1)).result
      = .ok (.replaced (.spliced 1)) :=
    eq_ok_of_toOption (by decide +kernel)
  ⟨holds_self_run_iff (Or.inl rfl) (by decide +kernel) hok, by decide +kernel⟩

/-- A splice can put a list into itself: it held itself nowhere before, and the replacement
    succeeds. -/
theorem exists_splice_into_itself :
    ∃ f, Reachable f ∧ ¬ f.holds 0 0
      ∧ (f.run (.replaceChild 0 2 1)).result = .ok (.replaced (.spliced 1))
      ∧ (f.run (.replaceChild 0 2 1)).forest.holds 0 0 :=
  ⟨empty.runAll nestedBlocks, Reachable.start.runAll nestedBlocks, by decide +kernel,
    eq_ok_of_toOption (by decide +kernel), by decide +kernel⟩

end NodeForest.Forest
