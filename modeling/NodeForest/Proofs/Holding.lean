import NodeForest.Proofs.Moves

set_option autoImplicit false

/-! # Held nodes are alive

A place never names a node that has been freed, and a node that has just been created stands in no
place and holds nothing. -/

namespace NodeForest.Forest

variable {f stored : Forest} {owner : NodeId} {released adopted : List NodeId}

/-! ## Holding across a move -/

theorem not_holds_insert_fresh (f : Forest) (spec : NodeSpec) (n : NodeId) :
    ¬ (f.insert (Node.fresh spec)).2.holds f.nodes.size n := by
  unfold holds
  rw [node?_insert, if_pos rfl]
  simp only [Option.any_some, Node.holds, Node.occupants, Node.fresh]
  split <;> simp

/-- What is held after a node has been created was held before, by the same owner. -/
theorem holds_of_holds_insert_fresh {spec : NodeSpec} {p n : NodeId}
    (h : (f.insert (Node.fresh spec)).2.holds p n) : p ≠ f.nodes.size ∧ f.holds p n := by
  have hp : p ≠ f.nodes.size := by
    rintro rfl
    exact not_holds_insert_fresh f spec n h
  exact ⟨hp, by rwa [(sameContents_insert f _ hp).holds] at h⟩

theorem holds_free_iff {n p m : NodeId} : (f.free n).holds p m ↔ p ≠ n ∧ f.holds p m := by
  by_cases hp : p = n
  · simp [hp, holds, node?_free]
  · rw [(sameContents_free f hp).holds]
    constructor
    · intro h
      exact ⟨hp, h⟩
    · intro h
      exact h.2

theorem holds_handOver (n p : NodeId) :
    (stored.handOver owner released adopted).holds p n = stored.holds p n :=
  (sameContents_handOver stored owner released adopted p).holds n

theorem isHeld_of_holds {p n : NodeId} (h : f.holds p n) : f.isHeld n := by
  obtain ⟨node, hnode⟩ := isLive_iff.1 (isLive_of_holds h)
  rw [holds, hnode] at h
  rw [node?, Option.join_eq_some_iff] at hnode
  exact Array.any_eq_true'.2 ⟨some node, Array.mem_of_getElem? hnode, h⟩

theorem not_holds_of_isLost {n : NodeId} (h : f.isLost n) (p : NodeId) : ¬ f.holds p n := by
  intro hholds
  rw [isLost, isHeld_of_holds hholds] at h
  simp at h

theorem HandedOver.taken {g : Forest} (hg : HandedOver f g owner adopted) {n : NodeId}
    (hn : n ∈ adopted) : g.holds owner n := by
  obtain ⟨stored, released, r, rfl⟩ := hg
  rw [holds_handOver]
  exact r.taken n hn

theorem HandedOver.gained {g : Forest} (hg : HandedOver f g owner adopted) {n : NodeId}
    (h : g.holds owner n) : f.holds owner n ∨ n ∈ adopted := by
  obtain ⟨stored, released, r, rfl⟩ := hg
  rw [holds_handOver] at h
  exact r.gained n h

/-- Nobody comes to hold a node but by adopting it. -/
theorem Move.origin {allowed : NodeSpec → Prop} {g : Forest} {adoptions : List Adoption}
    (m : Move allowed f adoptions g) {p n : NodeId} (h : g.holds p n) :
    f.holds p n ∨ ∃ a ∈ adoptions, a.owner = p ∧ a.child = n := by
  cases m with
  | create _ _ => exact Or.inl (holds_of_holds_insert_fresh h).2
  | recount m change => exact Or.inl ((sameContents_countCallers f m change p).holds n ▸ h)
  | @rewire _ owner _ _ source? r _ =>
    rw [holds_handOver] at h
    by_cases hp : p = owner
    · subst hp
      rcases r.gained n h with h | h
      · exact Or.inl h
      · exact Or.inr ⟨_, List.mem_map.2 ⟨n, h, rfl⟩, rfl, rfl⟩
    · exact Or.inl (r.othersGained p hp n h)
  | free _ _ => exact Or.inl (holds_free_iff.1 h).2

theorem Moves.origin {allowed : NodeSpec → Prop} {g : Forest} {adoptions : List Adoption}
    (m : Moves allowed f adoptions g) {p n : NodeId} (h : g.holds p n) :
    f.holds p n ∨ ∃ a ∈ adoptions, a.owner = p ∧ a.child = n := by
  induction m with
  | refl => exact Or.inl h
  | step _ last ih =>
    rcases last.origin h with h | ⟨a, ha, howner⟩
    · rcases ih h with h | ⟨a, ha, howner⟩
      · exact Or.inl h
      · exact Or.inr ⟨a, List.mem_append_left _ ha, howner⟩
    · exact Or.inr ⟨a, List.mem_append_right _ ha, howner⟩

/-- An owner that survives reclaiming holds what it held. -/
theorem holds_reclaim {p n : NodeId} (h : f.holds p n) (hlive : f.reclaim.isLive p) :
    f.reclaim.holds p n := by
  fun_induction reclaim f with
  | case1 f _ => exact h
  | case2 f lost hlost _ ih =>
    have m : Moves (fun _ => True) (f.free lost) [] (f.free lost).reclaim := moves_reclaim _
    have hp : (f.free lost).isLive p :=
      (m.survivor ((size_free f lost).symm ▸ lt_size_of_isLive (isLive_of_holds h)) hlive).1
    exact ih (holds_free_iff.2 ⟨ne_of_isLive_free hp, h⟩) hlive

/-! ## The law -/

/-- Whatever stands in a place is alive. -/
def HeldAlive (f : Forest) : Prop :=
  ∀ p n, f.holds p n → f.isLive n

theorem heldAlive_handOver (r : Rewiring f stored owner released adopted)
    (horigin : ∀ n ∈ adopted, f.isLive n ∨ ∃ p, f.holds p n) (hf : HeldAlive f) :
    HeldAlive (stored.handOver owner released adopted) := by
  intro p n h
  rw [holds_handOver] at h
  rw [r.isLive_handOver]
  by_cases hp : p = owner
  · subst hp
    rcases r.gained n h with h | h
    · exact hf p n h
    · rcases horigin n h with h | ⟨q, h⟩
      · exact h
      · exact hf q n h
  · exact hf p n (r.othersGained p hp n h)

theorem Move.heldAlive {allowed : NodeSpec → Prop} {g : Forest} {adoptions : List Adoption}
    (m : Move allowed f adoptions g) (hf : HeldAlive f) : HeldAlive g := by
  cases m with
  | create _ _ =>
    intro p n h
    exact isLive_insert (hf p n (holds_of_holds_insert_fresh h).2) _
  | recount n change =>
    intro p m h
    rw [(sameContents_countCallers f n change p).holds] at h
    exact (sameContents_countCallers f n change m).isLive.trans (hf p m h)
  | rewire _ r horigin => exact heldAlive_handOver r horigin hf
  | free lost hlost =>
    intro p n h
    have hholds := (holds_free_iff.1 h).2
    have hn : n ≠ lost := by
      rintro rfl
      exact not_holds_of_isLost hlost p hholds
    exact (sameContents_free f hn).isLive.trans (hf p n hholds)

theorem heldAlive_empty : HeldAlive empty := by
  intro p n h
  exact absurd (isLive_of_holds h) (not_isLive_empty p)

theorem Reachable.heldAlive (hf : Reachable f) : HeldAlive f :=
  hf.invariant heldAlive_empty Move.heldAlive

end NodeForest.Forest
