import NodeForest.Proofs.SingleOwner
import NodeForest.Proofs.SnapshotRecursion

set_option autoImplicit false

/-! # Forests without circles

An edit lets one owner adopt nodes that are reached from the node it is asked to install. It closes
a circle only if the owner is reached from there too. Without circles every way comes to an end: up
along the links, because a link is a step of holding turned round, and down along the children. -/

namespace NodeForest.Forest

open Relation

/-- The owner that an edit asks to take a node in, and that node. -/
def installs? (f : Forest) : Edit → Option (NodeId × NodeId)
  | .fillSlot owner _ value | .setChild owner _ value => value.map (owner, ·)
  | .push list child => child.map (list, ·)
  | .replaceChild owner _ new => some (owner, new)
  | .replace n new => (f.parent? n).map (·, new)
  | _ => none

/-- The edit asks no owner to take in a node that leads to it. -/
def ClosesNoCircle (f : Forest) (e : Edit) : Prop :=
  ∀ owner new, f.installs? e = some (owner, new) → ¬ f.Reaches new owner

/-- The node that is come to by taking the parent so many times. -/
def ancestor? (f : Forest) : (steps : Nat) → NodeId → Option NodeId
  | 0, n => some n
  | steps + 1, n => (f.parent? n).bind (f.ancestor? steps)

variable {f : Forest} {e : Edit} {n m root owner new : NodeId} {a : Adoption}

/-! ## Edits -/

theorem Replaced.reaches_of_mem {r : Replacement} {g : Forest} (hr : Replaced f owner new r g)
    (ha : a ∈ f.replacementAdoptions owner new r) : a.owner = owner ∧ f.Reaches new a.child := by
  cases hr with
  | single _ _ =>
    obtain rfl := List.mem_singleton.1 ha
    exact ⟨rfl, .refl⟩
  | spliced _ _ _ _ =>
    obtain ⟨n, hn, rfl⟩ := List.mem_map.1 ha
    exact ⟨rfl, .single (holds_iff.2 (Or.inr (mem_filterMap_id.1 hn)))⟩

/-- What a caller puts in a place is adopted as it is. -/
theorem exists_install_of_mem {value : Option NodeId}
    (ha : a ∈ value.toList.map fun n => (⟨owner, n, none⟩ : Adoption)) :
    ∃ new, value.map (owner, ·) = some (a.owner, new) ∧ f.Reaches new a.child := by
  obtain ⟨n, hn, rfl⟩ := List.mem_map.1 ha
  exact ⟨n, congrArg (Option.map (owner, ·)) (Option.mem_toList.1 hn), .refl⟩

/-- Adoptions are made by the owner that is asked to install a node, of nodes reached from that one,
    or else by a list that has just been created. -/
theorem mem_adoptions_cases (ha : a ∈ f.adoptions e) :
    (∃ new, f.installs? e = some (a.owner, new) ∧ f.Reaches new a.child)
      ∨ f.installs? e = none ∧ a.owner = f.nodes.size ∧ f.isLive a.child := by
  cases hok : (f.perform e).result with
  | error refusal =>
    rw [adoptions, hok] at ha
    cases ha
  | ok answer =>
    have hask : ∀ {owner old new}, f.AsksToReplace e owner old new →
        a.owner = owner ∧ f.Reaches new a.child := by
      intro owner old new hask
      obtain ⟨-, r, rfl, hr⟩ := hask.replaced hok
      exact hr.reaches_of_mem (hask.adoptions_eq hok ▸ ha)
    have hlive : ∀ n ∈ e.operands, f.isLive n := by
      rcases perform_cases f e with ⟨refusal, hperform⟩ | ⟨hlive, -, -⟩
      · rw [hperform] at hok
        cases hok
      · exact hlive
    rw [adoptions_eq hok] at ha
    cases e with
    | gather spec nodes =>
      obtain ⟨n, hn, rfl⟩ := List.mem_map.1 ha
      exact Or.inr ⟨rfl, rfl, hlive n hn⟩
    | fillSlot owner i value => exact Or.inl (exists_install_of_mem ha)
    | setChild owner name value => exact Or.inl (exists_install_of_mem ha)
    | push list child => exact Or.inl (exists_install_of_mem ha)
    | replaceChild owner old new =>
      obtain ⟨howner, hreaches⟩ := hask (Or.inl rfl)
      exact Or.inl ⟨new, by rw [installs?, howner], hreaches⟩
    | replace n new =>
      cases hparent : f.parent? n with
      | none =>
        cases answer <;> simp [adoptionsOf, hparent] at ha
      | some owner =>
        obtain ⟨howner, hreaches⟩ := hask (Or.inr ⟨rfl, hparent⟩)
        exact Or.inl ⟨new, by rw [installs?, hparent, howner]; rfl, hreaches⟩
    | _ => cases ha

/-- An edit that closes no circle leaves a forest without circles. -/
theorem Acyclic.run (hheld : HeldAlive f) (hf : f.Acyclic) (he : f.ClosesNoCircle e) :
    (f.run e).forest.Acyclic := by
  have m := moves_run_any f e
  cases hinstalls : f.installs? e with
  | none =>
    refine acyclic_of_added f.nodes.size (f.isLive ·) ?_ hf ?_
    · intro p n h
      rcases m.origin h with hbefore | ⟨a, ha, rfl, rfl⟩
      · exact Or.inl hbefore
      · rcases mem_adoptions_cases ha with ⟨new, hsome, -⟩ | ⟨-, howner, hlive⟩
        · rw [hinstalls] at hsome
          cases hsome
        · exact Or.inr ⟨howner, hlive⟩
    · -- Nobody reaches the list that the edit may create.
      intro c hc hpath
      have hdead : ¬ f.isLive f.nodes.size := fun h => Nat.lt_irrefl _ (lt_size_of_isLive h)
      rcases hpath.cases_tail with heq | ⟨q, -, hq⟩
      · exact hdead (heq ▸ hc)
      · exact hdead (hheld q _ hq)
  | some pair =>
    obtain ⟨owner, new⟩ := pair
    refine acyclic_of_added owner (f.Reaches new) ?_ hf ?_
    · intro p n h
      rcases m.origin h with hbefore | ⟨a, ha, rfl, rfl⟩
      · exact Or.inl hbefore
      · rcases mem_adoptions_cases ha with ⟨new', hsome, hreaches⟩ | ⟨hnone, -⟩
        · rw [hinstalls] at hsome
          cases hsome
          exact Or.inr ⟨rfl, hreaches⟩
        · rw [hinstalls] at hnone
          cases hnone
    · intro c hc hback
      exact he owner new hinstalls (hc.trans hback)

theorem acyclic_empty : empty.Acyclic := by
  intro n hcircle
  obtain ⟨m, hstep, -⟩ := TransGen.head'_iff.1 hcircle
  exact not_isLive_empty n (isLive_of_holds hstep)

/-- A run of such edits never closes a circle. -/
theorem Run.acyclic {history : List Adoption} (hf : Run ClosesNoCircle f history) : f.Acyclic := by
  induction hf with
  | start => exact acyclic_empty
  | edit e hrun he ih => exact ih.run hrun.reachable.heldAlive he

/-! ## The way up -/

theorem ancestor?_add (i j : Nat) (n : NodeId) :
    f.ancestor? (i + j) n = (f.ancestor? i n).bind (f.ancestor? j) := by
  induction i generalizing n with
  | zero => rw [Nat.zero_add]; rfl
  | succ i ih =>
    rw [Nat.add_right_comm, ancestor?, ancestor?, Option.bind_assoc]
    exact congrArg (Option.bind _) (funext ih)

theorem transGen_of_ancestor? (hlinks : LinksAccurate f) {i : Nat}
    (h : f.ancestor? (i + 1) n = some m) : TransGen (fun p n => f.holds p n) m n := by
  induction i generalizing n with
  | zero =>
    obtain ⟨p, hp, hm⟩ := Option.bind_eq_some_iff.1 h
    obtain rfl := Option.some.inj hm
    exact .single (hlinks n p hp).2
  | succ i ih =>
    obtain ⟨p, hp, hm⟩ := Option.bind_eq_some_iff.1 h
    exact (ih hm).tail (hlinks n p hp).2

/-- Without circles no node is met twice on the way up. -/
theorem Acyclic.ancestor?_inj (hlinks : LinksAccurate f) (hf : f.Acyclic) {i j : Nat}
    (hi : f.ancestor? i n = some m) (hj : f.ancestor? j n = some m) : i = j := by
  have hle : ∀ {i j : Nat}, f.ancestor? i n = some m → f.ancestor? j n = some m → ¬ i < j := by
    intro i j hi hj hlt
    obtain ⟨k, rfl⟩ := Nat.exists_eq_add_of_lt hlt
    rw [Nat.add_assoc, ancestor?_add, hi, Option.bind_some] at hj
    exact hf m (transGen_of_ancestor? hlinks hj)
  exact Nat.le_antisymm (Nat.not_lt.1 (hle hj hi)) (Nat.not_lt.1 (hle hi hj))

/-- Without circles the way up ends at a node without a parent, from which `n` is reached. -/
theorem Acyclic.exists_root (hlinks : LinksAccurate f) (hf : f.Acyclic) (n : NodeId) :
    ∃ steps root, f.ancestor? steps n = some root ∧ f.parent? root = none ∧ f.Reaches root n := by
  induction n using hf.induction_up with
  | step n ih =>
    cases hparent : f.parent? n with
    | none => exact ⟨0, n, rfl, hparent, .refl⟩
    | some p =>
      have hholds := (hlinks n p hparent).2
      obtain ⟨steps, root, hroot, hnone, hreaches⟩ := ih p hholds
      exact ⟨steps + 1, root, by rw [ancestor?, hparent, Option.bind_some, hroot], hnone,
        hreaches.tail hholds⟩

/-! ## The law -/

/-- **Circles are closed only by installing a node that leads to its owner.** Without circles the
    way up from a live node ends, meets no node twice and leads to a node without a parent from
    which the first is reached; and the descent of a snapshot ends. -/
theorem Reachable.acyclic_laws (hf : Reachable f) (hacyclic : f.Acyclic) :
    (∀ e, f.installs? e = none → (f.run e).forest.Acyclic)
      ∧ (∀ e owner new, f.installs? e = some (owner, new) → ¬ f.Reaches new owner →
          (f.run e).forest.Acyclic)
      ∧ ∀ n, f.isLive n →
          (∃ steps root, f.ancestor? steps n = some root ∧ f.parent? root = none
            ∧ f.Reaches root n)
          ∧ (∀ i j m, f.ancestor? i n = some m → f.ancestor? j n = some m → i = j)
          ∧ Acc (fun m p => f.StepsTo p m) n
          ∧ (f.snapshot? n).isSome := by
  refine ⟨?_, ?_, ?_⟩
  · intro e hnone
    refine hacyclic.run hf.heldAlive fun owner new hsome => ?_
    rw [hnone] at hsome
    cases hsome
  · intro e owner new hsome hback
    refine hacyclic.run hf.heldAlive fun owner' new' hsome' => ?_
    obtain ⟨rfl, rfl⟩ := Prod.mk.inj (Option.some.inj (hsome.symm.trans hsome'))
    exact hback
  · intro n hn
    refine ⟨hacyclic.exists_root hf.linksAccurate n, ?_, ?_, ?_⟩
    · exact fun i j m => hacyclic.ancestor?_inj hf.linksAccurate
    · exact (hacyclic.unwinds n).acc hf.heldAlive
    · exact (isSome_snapshot?_iff hf.heldAlive).2 ⟨hn, hacyclic.unwinds n⟩

/-- Every node ranks above those it holds. -/
def RankedBy (f : Forest) (rank : NodeId → Nat) : Prop :=
  ∀ p < f.nodes.size, ∀ n < f.nodes.size, f.holds p n → rank n < rank p

instance (f : Forest) (rank : NodeId → Nat) : Decidable (f.RankedBy rank) :=
  inferInstanceAs (Decidable
    (∀ p < f.nodes.size, ∀ n < f.nodes.size, f.holds p n → rank n < rank p))

section Ranked

variable {rank : NodeId → Nat}

theorem RankedBy.lt_of_holds (h : f.RankedBy rank) (hheld : HeldAlive f) {p n : NodeId}
    (hholds : f.holds p n) : rank n < rank p :=
  h p (lt_size_of_isLive (isLive_of_holds hholds)) n (lt_size_of_isLive (hheld p n hholds)) hholds

theorem RankedBy.acyclic (h : f.RankedBy rank) (hheld : HeldAlive f) : f.Acyclic := by
  have hlt : ∀ {p n}, TransGen (fun p n => f.holds p n) p n → rank n < rank p := by
    intro p n hpath
    induction hpath with
    | single hstep => exact h.lt_of_holds hheld hstep
    | tail _ hstep ih => exact Nat.lt_trans (h.lt_of_holds hheld hstep) ih
  exact fun n hcircle => Nat.lt_irrefl _ (hlt hcircle)

theorem RankedBy.le_of_reaches (h : f.RankedBy rank) (hheld : HeldAlive f) {p n : NodeId}
    (hpath : f.Reaches p n) : rank n ≤ rank p := by
  induction hpath with
  | refl => exact Nat.le_refl _
  | tail _ hstep ih => exact Nat.le_trans (Nat.le_of_lt (h.lt_of_holds hheld hstep)) ih

end Ranked

/-- A block holds a second block and an identifier, which the second block holds as well; a third
    block holds another identifier. -/
def sharedLeaf : List Edit :=
  let block := Catalogue.spec Catalogue.block "" true true
  let identifier := Catalogue.spec Catalogue.identifier "x" false true
  [.create block, .create block, .create block, .create identifier, .create identifier,
    .push 0 (some 1), .push 0 (some 3), .push 1 (some 3), .push 2 (some 4)]

theorem Reachable.acyclic_laws_sharedLeaf :
    ((empty.runAll sharedLeaf).run (.removeItem 0 3)).forest.Acyclic
      ∧ ((empty.runAll sharedLeaf).run (.replaceChild 1 3 2)).forest.Acyclic
      ∧ (∃ steps root, (empty.runAll sharedLeaf).ancestor? steps 3 = some root
        ∧ (empty.runAll sharedLeaf).parent? root = none ∧ (empty.runAll sharedLeaf).Reaches root 3)
      ∧ ((empty.runAll sharedLeaf).snapshot? 0).isSome := by
  have hf := Reachable.start.runAll sharedLeaf
  -- The blocks rank above the identifiers, each above those it holds.
  have hranked : (empty.runAll sharedLeaf).RankedBy (3 - ·) := by decide +kernel
  have hback : ¬ (empty.runAll sharedLeaf).Reaches 2 1 := fun hpath =>
    absurd (hranked.le_of_reaches hf.heldAlive hpath) (by decide)
  obtain ⟨hother, hinstall, hways⟩ := Reachable.acyclic_laws hf (hranked.acyclic hf.heldAlive)
  exact ⟨hother (.removeItem 0 3) rfl, hinstall (.replaceChild 1 3 2) 1 2 rfl hback,
    (hways 3 (by decide +kernel)).1, (hways 0 (by decide +kernel)).2.2.2⟩

end NodeForest.Forest
