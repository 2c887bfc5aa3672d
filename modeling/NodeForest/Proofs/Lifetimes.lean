import NodeForest.Proofs.Acyclicity

set_option autoImplicit false

/-! # What keeps a node alive

A node is referred to by callers and from the places of live nodes, and it lives as long as there is
such a reference; a link to a parent is none. A node to which the last reference is gone is freed,
and with it go the references from its places. In which order this happens does not matter. Where
nothing holds itself the live nodes are those reached from nodes that callers refer to, so giving up
the last reference to a node frees what is reached from that node alone. -/

namespace NodeForest.Forest

open Relation

variable {f g : Forest} {n m p root : NodeId}

/-- How many references to `n` there are: those of callers, and one for each place of a live node in
    which it stands. -/
def references (f : Forest) (n : NodeId) : Nat :=
  f.callers n
    + (f.nodes.toList.flatMap fun node? => node?.elim [] Node.occupants).count (some n)

/-- Nodes without a reference are freed one after the other, in any order, until every live node has
    one. -/
inductive Unreferenced : Forest → Forest → Prop
  | freed {f g : Forest} {n : NodeId} : f.isLive n → f.references n = 0 →
      Unreferenced (f.free n) g → Unreferenced f g
  | done {f : Forest} : (∀ n, f.isLive n → 0 < f.references n) → Unreferenced f f

/-- Callers refer to `n` or to a node from which it is reached. -/
def InUse (f : Forest) (n : NodeId) : Prop :=
  ∃ root, 0 < f.callers root ∧ f.Reaches root n

/-! ## References -/

theorem references_eq_zero : f.references n = 0 ↔ f.callers n = 0 ∧ ∀ p, ¬ f.holds p n := by
  rw [← not_exists, ← isHeld_iff, references, isHeld, Nat.add_eq_zero_iff, List.count_eq_zero,
    Bool.not_eq_true, Array.any_eq_false']
  refine and_congr_right fun _ => ?_
  simp only [List.mem_flatMap, not_exists, not_and, Array.mem_toList_iff]
  refine forall₂_congr fun node? _ => ?_
  cases node? with
  | none => simp
  | some node => simp [Node.holds]

theorem isLost_iff_references : f.isLost n ↔ f.isLive n ∧ f.references n = 0 := by
  rw [isLost_iff, references_eq_zero]

theorem settled_iff_references : Settled f ↔ ∀ n, f.isLive n → 0 < f.references n := by
  refine forall_congr' fun n => ?_
  rw [isLost_iff_references, not_and]
  exact imp_congr_right fun _ => Nat.pos_iff_ne_zero.symm

/-- In a settled forest the live nodes are those with a reference. -/
theorem Settled.isLive_iff (hf : Settled f) (hheld : HeldAlive f) :
    f.isLive n ↔ 0 < f.references n := by
  refine ⟨settled_iff_references.1 hf n, fun hpos => ?_⟩
  by_contra hdead
  refine Nat.ne_of_gt hpos (references_eq_zero.2 ⟨?_, fun p hholds => hdead (hheld p n hholds)⟩)
  exact Nat.eq_zero_of_not_pos fun hcallers => hdead (isLive_of_callers_pos hcallers)

/-! ## The order in which nodes are freed -/

theorem callers_free_of_ne (h : m ≠ n) : (f.free n).callers m = f.callers m := by
  unfold callers
  rw [node?_free, if_neg h, Option.map_map]
  refine congrArg (·.getD 0) (congrArg (Option.map · (f.node? m)) (funext fun node => ?_))
  rw [Function.comp_apply, Node.cutLink]
  split <;> rfl

theorem free_comm (f : Forest) (n m : NodeId) : (f.free n).free m = (f.free m).free n := by
  refine eq_of_node? (by simp only [size_free]) fun k => ?_
  simp only [node?_free]
  by_cases hn : k = n
  · simp [hn]
  · by_cases hm : k = m
    · simp [hm]
    · simp only [if_neg hn, if_neg hm, Option.map_map]
      refine congrArg (Option.map · (f.node? k)) (funext fun node => ?_)
      simp only [Function.comp_apply, Node.cutLink]
      grind

/-- What is lost remains so when another node is freed. -/
theorem isLost_free (hn : f.isLost n) (h : n ≠ m) : (f.free m).isLost n := by
  obtain ⟨hlive, hcallers, hholds⟩ := isLost_iff.1 hn
  refine isLost_iff.2 ⟨(sameContents_free f h).isLive.trans hlive, ?_, fun p hp => ?_⟩
  · exact (callers_free_of_ne h).trans hcallers
  · exact hholds p (holds_free_iff.1 hp).2

/-- Reclaiming may begin with any lost node. -/
theorem reclaim_free (hn : f.isLost n) : (f.free n).reclaim = f.reclaim := by
  induction hcount : f.liveCount using Nat.strong_induction_on generalizing f n with
  | _ count ih =>
    have hfewer : ∀ {k}, f.isLost k → (f.free k).liveCount < count := fun hk =>
      hcount ▸ liveCount_free (isLost_iff.1 hk).1
    cases hfirst : f.firstLost? with
    | none => exact absurd hn (settled_iff_firstLost?_eq_none.2 hfirst n)
    | some m =>
      have hm := isLost_of_firstLost? hfirst
      have hreclaim : f.reclaim = (f.free m).reclaim := by
        rw [reclaim]
        split
        · next hnone => exact absurd (hnone.symm.trans hfirst) nofun
        · next k hk =>
          obtain rfl := Option.some.inj (hk.symm.trans hfirst)
          rfl
      by_cases hne : n = m
      · rw [hne, hreclaim]
      · -- Each of the two nodes is lost still once the other has been freed.
        rw [hreclaim, ← ih _ (hfewer hn) (isLost_free hm (Ne.symm hne)) rfl, free_comm,
          ih _ (hfewer hm) (isLost_free hn hne) rfl]

/-- Freeing unreferenced nodes in any order is to reclaim. -/
theorem unreferenced_iff : f.Unreferenced g ↔ g = f.reclaim := by
  constructor
  · intro h
    induction h with
    | freed hlive hnone _ ih =>
      rw [ih, reclaim_free (isLost_iff_references.2 ⟨hlive, hnone⟩)]
    | done hall => exact (settled_iff_references.2 hall).reclaim_eq.symm
  · rintro rfl
    fun_induction reclaim f with
    | case1 f hnone =>
      exact .done (settled_iff_references.1 (settled_iff_firstLost?_eq_none.2 hnone))
    | case2 f n hn _ ih =>
      obtain ⟨hlive, hzero⟩ := isLost_iff_references.1 (isLost_of_firstLost? hn)
      exact .freed hlive hzero ih

/-! ## Nodes in use -/

theorem InUse.isLive (h : f.InUse n) (hheld : HeldAlive f) : f.isLive n := by
  obtain ⟨root, hcallers, hpath⟩ := h
  rcases hpath.cases_tail with rfl | ⟨p, -, hholds⟩
  · exact isLive_of_callers_pos hcallers
  · exact hheld p n hholds

/-- Without circles the way up from a node that is not lost ends at a node that callers refer to. -/
theorem Acyclic.inUse (hf : f.Acyclic) (hsettled : Settled f) (hn : f.isLive n) : f.InUse n := by
  induction n using hf.induction_up with
  | step n ih =>
    by_cases hcallers : f.callers n = 0
    · obtain ⟨p, hholds⟩ : ∃ p, f.holds p n := by
        by_contra hnone
        exact hsettled n (isLost_iff.2 ⟨hn, hcallers, not_exists.1 hnone⟩)
      obtain ⟨root, hroot, hpath⟩ := ih p hholds (isLive_of_holds hholds)
      exact ⟨root, hroot, hpath.tail hholds⟩
    · exact ⟨n, Nat.pos_of_ne_zero hcallers, .refl⟩

/-- Without circles the live nodes are those in use. -/
theorem Acyclic.isLive_iff_inUse (hf : f.Acyclic) (hsettled : Settled f) (hheld : HeldAlive f) :
    f.isLive n ↔ f.InUse n :=
  ⟨hf.inUse hsettled, fun h => h.isLive hheld⟩

/-! ## Reclaiming -/

/-- Only nodes without callers are freed. -/
theorem callers_reclaim (f : Forest) (n : NodeId) : f.reclaim.callers n = f.callers n := by
  fun_induction reclaim f with
  | case1 f _ => rfl
  | case2 f lost hlost _ ih =>
    rw [ih]
    by_cases hn : n = lost
    · subst hn
      rw [(isLost_iff.1 (isLost_of_firstLost? hlost)).2.1, callers, node?_free, if_pos rfl]
      rfl
    · exact callers_free_of_ne hn

theorem holds_of_holds_reclaim (h : f.reclaim.holds p n) : f.holds p n := by
  rwa [(sameContents_reclaim (isLive_of_holds h)).holds] at h

/-- Reclaiming frees nothing that is in use, and lets nothing come into use. -/
theorem inUse_reclaim_iff (hheld : HeldAlive f.reclaim) : f.reclaim.InUse n ↔ f.InUse n := by
  constructor
  · rintro ⟨root, hcallers, hpath⟩
    exact ⟨root, callers_reclaim f root ▸ hcallers,
      ReflTransGen.mono (fun _ _ => holds_of_holds_reclaim) _ _ hpath⟩
  · rintro ⟨root, hcallers, hpath⟩
    rw [← callers_reclaim] at hcallers
    refine ⟨root, hcallers, ?_⟩
    induction hpath with
    | refl => exact .refl
    | tail _ hholds ih =>
      exact ih.tail (holds_reclaim hholds (InUse.isLive ⟨root, hcallers, ih⟩ hheld))

/-- A link survives if both its ends do. -/
theorem parent?_reclaim (hlinks : LinksAccurate f) :
    f.reclaim.parent? n = some p
      ↔ f.parent? n = some p ∧ f.reclaim.isLive n ∧ f.reclaim.isLive p := by
  fun_induction reclaim f with
  | case1 f _ =>
    refine (and_iff_left_of_imp fun h => ?_).symm
    exact ⟨isLive_of_parent? h, isLive_of_self? (hlinks n p h).1⟩
  | case2 f lost _ _ ih =>
    have hne : ∀ {m}, (f.free lost).reclaim.isLive m → m ≠ lost := fun h =>
      ne_of_isLive_free (isLive_of_isLive_reclaim h)
    rw [ih (linksAccurate_free hlinks lost), parent?_free]
    constructor
    · rintro ⟨⟨hparent, -, -⟩, hlive⟩
      exact ⟨hparent, hlive⟩
    · rintro ⟨hparent, hn, hp⟩
      exact ⟨⟨hparent, hne hn, hne hp⟩, hn, hp⟩

/-! ## Giving up a reference -/

theorem callers_countCallers (hn : f.isLive n) (change : Nat → Nat) (m : NodeId) :
    (f.countCallers n change).callers m = if m = n then change (f.callers n) else f.callers m := by
  obtain ⟨node, hnode⟩ := isLive_iff.1 hn
  unfold callers countCallers
  rw [node?_modify]
  split
  · next hm => rw [hm, hnode]; rfl
  · rfl

/-- After the last reference of callers to `root` has gone, in use is what is reached from another
    node that callers refer to. -/
theorem inUse_letGo_iff (hroot : f.callers root = 1) :
    (f.countCallers root (· - 1)).InUse n
      ↔ ∃ other, other ≠ root ∧ 0 < f.callers other ∧ f.Reaches other n := by
  have hholds : (f.countCallers root (· - 1)).Reaches = f.Reaches := by
    unfold Reaches
    congr 1
    funext p m
    rw [(sameContents_countCallers f root (· - 1) p).holds]
  have hlive : f.isLive root := isLive_of_callers_pos (by omega)
  unfold InUse
  simp only [hholds, callers_countCallers hlive]
  refine exists_congr fun other => ?_
  by_cases hother : other = root
  · simp [hother, hroot]
  · simp [hother]

theorem perform_letGo (hn : f.isLive n) :
    (f.perform (.letGo n)).forest = f.countCallers n (· - 1) := by
  simp [perform, Edit.operands, Edit.list?, carryOut, hn]

/-- Without circles the last reference of callers to `root` keeps alive what is reached from no
    other node that callers refer to. -/
theorem Acyclic.isLive_letGo_iff (hf : f.Acyclic) (hreachable : Reachable f)
    (hroot : f.callers root = 1) :
    (f.run (.letGo root)).forest.isLive n
      ↔ ∃ other, other ≠ root ∧ 0 < f.callers other ∧ f.Reaches other n := by
  have hlive : f.isLive root := isLive_of_callers_pos (by omega)
  have hafter : Reachable (f.run (.letGo root)).forest := .run _ hreachable
  have hacyclic : (f.run (.letGo root)).forest.Acyclic := hf.run hreachable.heldAlive nofun
  rw [hacyclic.isLive_iff_inUse hafter.settled hafter.heldAlive, Forest.run,
    inUse_reclaim_iff hafter.heldAlive, perform_letGo hlive, inUse_letGo_iff hroot]

/-- A survivor keeps its link if the parent survives too. -/
theorem LinksAccurate.parent?_letGo (hlinks : LinksAccurate f) (hparent : f.parent? n = some p)
    (hn : (f.run (.letGo root)).forest.isLive n) :
    (f.run (.letGo root)).forest.parent? n
      = if (f.run (.letGo root)).forest.isLive p then some p else none := by
  have m : Moves (fun _ => True) f _ (f.perform (.letGo root)).forest :=
    moves_perform f fun _ _ => trivial
  have hbefore : (f.perform (.letGo root)).forest.parent? n = some p := by
    by_cases hroot : f.isLive root
    · rw [perform_letGo hroot, parent?_countCallers, hparent]
    · simp [perform, Edit.operands, hroot, hparent]
  have hiff : ∀ q, (f.run (.letGo root)).forest.parent? n = some q
      ↔ p = q ∧ (f.run (.letGo root)).forest.isLive n
        ∧ (f.run (.letGo root)).forest.isLive q := fun q => by
    rw [Forest.run, parent?_reclaim (m.preserve Move.linksAccurate hlinks), hbefore,
      Option.some_inj]
  split
  · next hp => exact (hiff p).2 ⟨rfl, hn, hp⟩
  · next hp =>
    refine Option.eq_none_iff_forall_ne_some.2 fun q hq => hp ?_
    obtain ⟨rfl, -, hlive⟩ := (hiff q).1 hq
    exact hlive

/-! ## The law -/

/-- **Places and callers keep nodes alive, and nothing else does.** Whatever stands in a place is
    alive, and alive is what is referred to; it does not matter in which order nodes without a
    reference are freed. Without circles alive is what is in use, so giving up the last reference of
    callers to a node leaves exactly what is reached from another node that callers refer to. A
    survivor whose link named a freed node has no parent. -/
theorem Reachable.isLive_laws (hf : Reachable f) :
    (∀ p n, f.isLive p → f.holds p n → f.isLive n)
      ∧ (∀ n, f.isLive n ↔ 0 < f.references n)
      ∧ (∀ e g, (f.perform e).forest.Unreferenced g ↔ g = (f.run e).forest)
      ∧ (f.Acyclic → ∀ n, f.isLive n ↔ f.InUse n)
      ∧ (f.Acyclic → ∀ root, f.callers root = 1 → ∀ n,
          (f.run (.letGo root)).forest.isLive n
            ↔ ∃ other, other ≠ root ∧ 0 < f.callers other ∧ f.Reaches other n)
      ∧ ∀ root n p, f.parent? n = some p → (f.run (.letGo root)).forest.isLive n →
          (f.run (.letGo root)).forest.parent? n
            = if (f.run (.letGo root)).forest.isLive p then some p else none := by
  have hheld := hf.heldAlive
  refine ⟨fun p n _ => hheld p n, fun n => hf.settled.isLive_iff hheld, fun e g => unreferenced_iff,
    ?_, ?_, ?_⟩
  · exact fun hacyclic n => hacyclic.isLive_iff_inUse hf.settled hheld
  · exact fun hacyclic root hroot n => hacyclic.isLive_letGo_iff hf hroot
  · exact fun root n p hparent hn => hf.linksAccurate.parent?_letGo hparent hn

/-- The identifier 2 stands in the blocks 3 and 1 and is a child of the latter, which stands in the
    block 0. Callers refer to the blocks 0 and 3. -/
def twoOwners : List Edit :=
  let block := Catalogue.spec Catalogue.block "" true true
  let identifier := Catalogue.spec Catalogue.identifier "x" false true
  [.create block, .create block, .create identifier, .create block, .push 3 (some 2),
    .push 1 (some 2), .push 0 (some 1), .letGo 1, .letGo 2]

theorem Reachable.isLive_laws_twoOwners :
    (empty.runAll twoOwners).InUse 2
      ∧ ¬ ((empty.runAll twoOwners).run (.letGo 0)).forest.isLive 1
      ∧ ((empty.runAll twoOwners).run (.letGo 0)).forest.isLive 2
      ∧ ((empty.runAll twoOwners).run (.letGo 0)).forest.parent? 2 = none := by
  have hf := Reachable.start.runAll twoOwners
  -- The blocks 0 and 3 rank above what they hold.
  have hranked : (empty.runAll twoOwners).RankedBy ([2, 1, 0, 2].getD · 0) := by decide +kernel
  have hacyclic := hranked.acyclic hf.heldAlive
  obtain ⟨-, -, -, hinUse, hletGo, hparent⟩ := Reachable.isLive_laws hf
  have hone : ¬ ((empty.runAll twoOwners).run (.letGo 0)).forest.isLive 1 := by decide +kernel
  have htwo : ((empty.runAll twoOwners).run (.letGo 0)).forest.isLive 2 :=
    (hletGo hacyclic 0 (by decide +kernel) 2).2
      ⟨3, by decide, by decide +kernel, .single (by decide +kernel)⟩
  refine ⟨(hinUse hacyclic 2).1 (by decide +kernel), hone, htwo, ?_⟩
  rw [hparent 0 2 1 (by decide +kernel) htwo, if_neg hone]

end NodeForest.Forest
