import NodeForest.Proofs.Holding

set_option autoImplicit false

/-! # A parent link is accurate or absent

Whatever a caller does (sharing nodes between owners, putting a node into its own slot, closing
circles, giving items to a list that has slots), a node whose link names a parent stands in one of
the places of that parent. -/

namespace NodeForest.Forest

/-- Every link names a node that knows itself and holds the node with the link. -/
def LinksAccurate (f : Forest) : Prop :=
  ∀ n p, f.parent? n = some p → f.self? p = some p ∧ f.holds p n

variable {f stored : Forest} {owner : NodeId} {released adopted : List NodeId}

theorem linksAccurate_insert (hf : LinksAccurate f) (spec : NodeSpec) :
    LinksAccurate (f.insert (Node.fresh spec)).2 := by
  intro n p h
  rw [parent?_insert_fresh] at h
  obtain ⟨hself, hholds⟩ := hf n p h
  have hp : p ≠ f.nodes.size := by
    rintro rfl
    rw [self?, node?_size] at hself
    cases hself
  have hsame := sameContents_insert f (Node.fresh spec) hp
  exact ⟨hsame.self?.trans hself, (hsame.holds n).trans hholds⟩

theorem linksAccurate_countCallers (hf : LinksAccurate f) (n : NodeId) (change : Nat → Nat) :
    LinksAccurate (f.countCallers n change) := by
  intro m p h
  rw [parent?_countCallers] at h
  have hsame := sameContents_countCallers f n change p
  exact ⟨hsame.self?.trans (hf m p h).1, (hsame.holds m).trans (hf m p h).2⟩

/-- Nobody is left with a link to an owner that no longer holds it: what `owner` lost is released,
    and what others lost is adopted. -/
theorem linksAccurate_handOver (r : Rewiring f stored owner released adopted)
    (hf : LinksAccurate f) : LinksAccurate (stored.handOver owner released adopted) := by
  intro n p h
  rw [r.self?_handOver, holds_handOver]
  by_cases hn : n ∈ adopted
  · have hlive := isLive_of_parent? h
    rw [r.isLive_handOver] at hlive
    rw [r.parent?_handOver_of_mem hlive hn] at h
    obtain rfl := self?_eq_some h
    exact ⟨h, r.taken n hn⟩
  · rw [r.parent?_handOver_of_not_mem hn] at h
    by_cases hcut : n ∈ released ∧ f.parent? n = f.self? owner
    · rw [if_pos hcut] at h
      cases h
    · rw [if_neg hcut] at h
      -- The link is an old one; had its owner lost the node, the link would have been cut.
      obtain ⟨hself, hholds⟩ := hf n p h
      refine ⟨hself, ?_⟩
      by_cases hp : p = owner
      · subst hp
        exact (r.lost n hholds).resolve_right fun hr => hcut ⟨hr, h.trans hself.symm⟩
      · exact (r.othersLost p hp n hholds).resolve_right hn

theorem linksAccurate_free (hf : LinksAccurate f) (n : NodeId) : LinksAccurate (f.free n) := by
  intro m p h
  obtain ⟨hparent, -, hp⟩ := parent?_free.1 h
  have hsame := sameContents_free f hp
  exact ⟨hsame.self?.trans (hf m p hparent).1, (hsame.holds m).trans (hf m p hparent).2⟩

theorem Move.linksAccurate {allowed : NodeSpec → Prop} {g : Forest} {adoptions : List Adoption}
    (m : Move allowed f adoptions g) (hf : LinksAccurate f) : LinksAccurate g := by
  cases m with
  | create spec _ => exact linksAccurate_insert hf spec
  | recount n change => exact linksAccurate_countCallers hf n change
  | rewire _ r _ => exact linksAccurate_handOver r hf
  | free n _ => exact linksAccurate_free hf n

theorem linksAccurate_empty : LinksAccurate empty := by
  intro n p h
  exact absurd (isLive_of_parent? h) (not_isLive_empty n)

theorem Reachable.linksAccurate (hf : Reachable f) : LinksAccurate f :=
  hf.invariant linksAccurate_empty Move.linksAccurate

/-- **A parent is alive and holds its child.** -/
theorem Reachable.holds_of_parent? (hf : Reachable f) {n p : NodeId} (h : f.parent? n = some p) :
    f.isLive p ∧ f.holds p n := by
  obtain ⟨hself, hholds⟩ := hf.linksAccurate n p h
  exact ⟨isLive_of_self? hself, hholds⟩

/-- Two lists that have a slot each: the first holds the second as an item and itself in its slot,
    and then goes into the slot of the second. -/
def circleOfLists : List Edit :=
  let spec : NodeSpec := ⟨⟨"Ring", none⟩, .root ⟨"Ring", "Ring", ["next"]⟩, "", true, true⟩
  [.create spec, .create spec, .push 0 (some 1), .push 0 (some 1), .fillSlot 0 0 (some 0),
    .fillSlot 1 0 (some 0), .removeItem 0 1]

theorem Reachable.holds_of_parent?_circleOfLists :
    (empty.runAll circleOfLists).parent? 0 = some 1
      ∧ (empty.runAll circleOfLists).isLive 1 ∧ (empty.runAll circleOfLists).holds 1 0 := by
  have h : (empty.runAll circleOfLists).parent? 0 = some 1 := by decide +kernel
  exact ⟨h, Reachable.holds_of_parent? (Reachable.start.runAll circleOfLists) h⟩

end NodeForest.Forest
