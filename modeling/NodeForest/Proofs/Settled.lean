import NodeForest.Proofs.Holding

set_option autoImplicit false

/-! # Between edits no node is lost

Reclaiming goes on for as long as some node is lost, and leaves a forest alone in which none is. So
every reachable forest is settled: an edit that changes nothing frees nothing either, and after an
edit that loses no node the reclaiming is idle. -/

namespace NodeForest.Forest

variable {f g : Forest}

/-- How many references to `n` callers hold; none if it is not alive. -/
def callers (f : Forest) (n : NodeId) : Nat :=
  ((f.node? n).map (·.callers)).getD 0

theorem isLive_of_callers_pos {n : NodeId} (h : 0 < f.callers n) : f.isLive n := by
  unfold callers at h
  cases hnode : f.node? n with
  | none => simp [hnode] at h
  | some node => exact isLive_iff.2 ⟨node, hnode⟩

theorem isHeld_iff {n : NodeId} : f.isHeld n ↔ ∃ p, f.holds p n := by
  constructor
  · intro h
    obtain ⟨p, hp, hnode⟩ := Array.any_eq_true.1 h
    refine ⟨p, ?_⟩
    have hfound : f.node? p = f.nodes[p] := by simp [node?, hp]
    rw [holds, hfound]
    exact hnode
  · rintro ⟨p, h⟩
    exact isHeld_of_holds h

/-- A node is lost if it is alive for nobody. -/
theorem isLost_iff {n : NodeId} :
    f.isLost n ↔ f.isLive n ∧ f.callers n = 0 ∧ ∀ p, ¬ f.holds p n := by
  rw [← not_exists, ← isHeld_iff]
  unfold isLost isLive callers
  cases f.node? n with
  | none => simp
  | some node => simp

/-- No node is lost. -/
def Settled (f : Forest) : Prop :=
  ∀ n, ¬ f.isLost n

theorem settled_iff_firstLost?_eq_none : Settled f ↔ f.firstLost? = none := by
  unfold firstLost?
  rw [List.find?_eq_none]
  constructor
  · intro h n _
    exact h n
  · intro h n hlost
    -- Only a node that exists can be lost, so the search over all identities finds it.
    have hlt := lt_size_of_isLive (isLost_iff.1 hlost).1
    exact h n (List.mem_range.2 hlt) hlost

theorem Settled.reclaim_eq (hf : Settled f) : f.reclaim = f := by
  have hnone := settled_iff_firstLost?_eq_none.1 hf
  rw [reclaim]
  split
  · rfl
  · next n hn =>
    rw [hnone] at hn
    cases hn

theorem settled_reclaim (f : Forest) : Settled f.reclaim := by
  fun_induction reclaim f with
  | case1 f hnone => exact settled_iff_firstLost?_eq_none.2 hnone
  | case2 f n _ _ ih => exact ih

theorem settled_empty : Settled empty := by
  intro n hlost
  exact not_isLive_empty n (isLost_iff.1 hlost).1

theorem Reachable.settled (hf : Reachable f) : Settled f := by
  cases hf with
  | start => exact settled_empty
  | run e _ => exact settled_reclaim _

/-- A change that leaves liveness and callers alone loses no node if whatever was held is held
    still, be it by another owner, or has a caller. -/
theorem Settled.of_kept (hf : Settled f) (hlive : ∀ n, g.isLive n = f.isLive n)
    (hcallers : ∀ n, g.callers n = f.callers n)
    (hkept : ∀ p n, f.holds p n → (∃ q, g.holds q n) ∨ 0 < f.callers n) : Settled g := by
  intro n hlost
  obtain ⟨hn, hnone, hfree⟩ := isLost_iff.1 hlost
  rw [hlive] at hn
  rw [hcallers] at hnone
  refine hf n (isLost_iff.2 ⟨hn, hnone, ?_⟩)
  intro p h
  rcases hkept p n h with ⟨q, hq⟩ | hpos
  · exact hfree q hq
  · omega

/-- Once the operands are let go, nothing is freed if nothing was lost. -/
theorem run_forest_eq {e : Edit} (h : Settled (f.perform e).forest) :
    (f.run e).forest = (f.perform e).forest :=
  h.reclaim_eq

end NodeForest.Forest
