import NodeForest.Proofs.LastAdopter
import NodeForest.Proofs.Refusals

set_option autoImplicit false

/-! # Replacement finds its way

A node that is asked to have itself replaced turns to its parent. In a forest whose lists have no
slots the parent finds the node where it looks for it, since it holds the node in some place and has
one sort of places only. So such a request fails for two reasons: there is nobody to turn to, or the
parent would become its own child. -/

namespace NodeForest.Forest

variable {f : Forest}

/-- A list without slots holds a node as an item. -/
theorem mem_items_of_holds {owner n : NodeId} (hslots : f.slots owner = [])
    (h : f.holds owner n) : some n ∈ f.items owner := by
  rcases holds_iff.1 h with h | h
  · rw [hslots] at h
    cases h
  · exact h

/-- A node that is no list holds a node in a slot. -/
theorem exists_slot_of_holds {owner n : NodeId} (hlist : ¬ f.isList owner)
    (h : f.holds owner n) : ∃ s ∈ f.slots owner, s.occupant = some n := by
  rcases holds_iff.1 h with h | h
  · exact List.mem_map.1 h
  · rw [items_eq_nil hlist] at h
    cases h

/-- An owner that holds a child finds it, unless it has two sorts of places. -/
theorem guardedBy_replaceChild_of_holds {owner old : NodeId}
    (hslots : f.isList owner → f.slots owner = []) (h : f.holds owner old) (new : NodeId) :
    (f.replaceChild owner old new).GuardedBy [(new = owner, f.selfReference owner)] := by
  unfold replaceChild
  by_cases hlist : f.isList owner
  · rw [if_pos hlist]
    have hfound := mem_items_of_holds (hslots hlist) h
    exact (f.guardedBy_replaceInList owner old new).2 fun hnot => hnot hfound
  · rw [if_neg hlist]
    obtain ⟨s, hs, hoccupant⟩ := exists_slot_of_holds hlist h
    exact (f.guardedBy_replaceInSlot owner old new).2 fun hnot => hnot s hs hoccupant

theorem guardedBy_replace (hlinks : LinksAccurate f) (hlists : ListsSlotless f) (n new : NodeId) :
    (f.replace n new).GuardedBy
      [(f.parent? n = none ∨ f.self? n = none, .noParent (f.kindName n)),
        (f.parent? n = some new, f.selfReference new)] := by
  rcases f.asks_or_not n with hnone | ⟨p, hparent, hself⟩
  · exact .of_fails hnone (by rw [replace_eq_noParent hnone])
  · have hholds := (hlinks n p hparent).2
    have hguarded := guardedBy_replaceChild_of_holds (hlists p) hholds new
    refine .of_passes (by simp [hparent, hself]) ?_ ?_
    · rw [Ne, f.replace_eq_noParent_iff]
      simp [hparent, hself]
    · rw [replace_eq_replaceChild hparent hself, hparent, Option.some_inj, eq_comm (a := p)]
      by_cases hnew : new = p
      · subst hnew
        exact .of_fails rfl (hguarded.1.2 rfl)
      · obtain ⟨r, hok⟩ := hguarded.2 hnew
        exact .of_passes hnew (by simp [hok]) (.of_ok hok)

/-- **A request for replacement never loses its way.** It is refused if there is nobody to ask, or
    if the parent would become its own child, and in no other case; in particular the parent never
    denies its child. What the parent does on request is what it does when it is asked itself. -/
theorem Reachable.replace_finds_parent (hf : Reachable f) (hlists : ListsSlotless f)
    {n new : NodeId} (hn : f.isLive n) (hnew : f.isLive new) :
    (f.perform (.replace n new)).GuardedBy
        [(f.parent? n = none ∨ f.self? n = none, .tree (.noParent (f.kindName n))),
          (f.parent? n = some new, .tree (f.selfReference new))]
      ∧ (∀ owner child, (f.perform (.replace n new)).result ≠ .error (.tree (.notAChild owner child)))
      ∧ ∀ p, f.parent? n = some p → f.self? n = some n →
        f.perform (.replace n new) = { f.perform (.replaceChild p n new) with
          journal := .span (.replaceByParent (f.kindName n))
            :: (f.perform (.replaceChild p n new)).journal } := by
  have hguarded := guardedBy_replace hf.linksAccurate hlists n new
  refine ⟨?_, ?_, ?_⟩
  · rw [perform_replace hn hnew]
    exact hguarded.ofTree .replaced
  · intro owner child he
    rw [perform_replace hn hnew, Outcome.result_ofTree_eq_error] at he
    rcases hguarded.eq_or_eq he with h | h <;> cases h
  · intro p hparent hself
    have hp := isLive_of_self? (hf.linksAccurate n p hparent).1
    rw [perform_replace hn hnew, perform_replaceChild hp hn hnew,
      replace_eq_replaceChild hparent hself]
    rfl

/-- The identifier stands twice in its parent, the second block, and once in another block. -/
theorem Reachable.replace_finds_parent_sharedIdentifier :
    ((empty.runAll sharedIdentifier).perform (.replace 2 1)).result
        = .error (.tree (.selfReference "Block"))
      ∧ ((empty.runAll sharedIdentifier).perform (.replace 2 0)).forest
        = ((empty.runAll sharedIdentifier).perform (.replaceChild 1 2 0)).forest := by
  have hrun : Run MakesSlotlessLists (empty.runAll sharedIdentifier)
      ([] ++ empty.historyOf sharedIdentifier) := Run.start.runAll (by decide +kernel)
  have hlive : (empty.runAll sharedIdentifier).isLive 2 := by decide +kernel
  have hparent : (empty.runAll sharedIdentifier).parent? 2 = some 1 := by decide +kernel
  have hself : (empty.runAll sharedIdentifier).self? 2 = some 2 := by decide +kernel
  have hname : (empty.runAll sharedIdentifier).selfReference 1 = .selfReference "Block" := by
    decide +kernel
  have hfirst : (empty.runAll sharedIdentifier).isLive 0 := by decide +kernel
  have hsecond : (empty.runAll sharedIdentifier).isLive 1 := by decide +kernel
  have hitself := Reachable.replace_finds_parent hrun.reachable hrun.listsSlotless hlive hsecond
  have hother := Reachable.replace_finds_parent hrun.reachable hrun.listsSlotless hlive hfirst
  refine ⟨?_, ?_⟩
  · have herror := (hitself.1.2 (by simp [hparent, hself])).1.2 hparent
    rw [herror, hname]
  · rw [hother.2.2 1 hparent hself]

end NodeForest.Forest
