import NodeForest.Proofs.ItemReplacement

set_option autoImplicit false

/-! # Removing a node again and again

A list removes a node by its first position, one occurrence at a time. The list lets go of the link
with the last occurrence and not before, and a list that has none left refuses. `Peeled` states what
a forest reads after any number of such removals, those that are refused included. -/

namespace NodeForest

/-- The list without the first `j` occurrences of `a`, or without any if it has fewer. -/
def without {α : Type} [BEq α] (a : α) : (j : Nat) → List α → List α
  | 0, l => l
  | _ + 1, [] => []
  | j + 1, b :: l => if b == a then without a j l else b :: without a (j + 1) l

/-- What is first after `j` occurrences have gone is the next one to go. -/
theorem erase_without {α : Type} [BEq α] (a : α) (j : Nat) (l : List α) :
    (without a j l).erase a = without a (j + 1) l := by
  induction l generalizing j with
  | nil => cases j <;> rfl
  | cons b rest ih =>
    by_cases hb : (b == a) = true
    · cases j with
      | zero => rw [without, without, if_pos hb, without, List.erase_cons, if_pos hb]
      | succ j => rw [without, without, if_pos hb, if_pos hb, ih]
    · cases j with
      | zero => rw [without, without, if_neg hb, List.erase_cons_tail hb, ← ih, without]
      | succ j => rw [without, without, if_neg hb, if_neg hb, List.erase_cons_tail hb, ih]

section Without

variable {α : Type} [BEq α] [LawfulBEq α] {a b : α} {j : Nat} {l : List α}

theorem count_without (a : α) (j : Nat) (l : List α) :
    (without a j l).count a = l.count a - j := by
  induction j with
  | zero => rw [without, Nat.sub_zero]
  | succ j ih => rw [← erase_without, List.count_erase_self, ih, Nat.sub_sub]

theorem mem_without_iff_lt : a ∈ without a j l ↔ j < l.count a := by
  rw [← List.count_pos_iff, count_without]
  omega

theorem mem_without_of_ne (hne : b ≠ a) : b ∈ without a j l ↔ b ∈ l := by
  induction j with
  | zero => rw [without]
  | succ j ih => rw [← erase_without, List.mem_erase_of_ne hne, ih]

end Without

namespace Forest

variable {f g : Forest} {list child : NodeId} {j : Nat}

/-- The forest after a list of edits that are performed while the caller holds on to every node that
    they name. -/
def performAll (f : Forest) (edits : List Edit) : Forest :=
  edits.foldl (fun f e => (f.perform e).forest) f

/-! ## One removal -/

theorem removeItem_of_mem (h : some child ∈ f.items list) :
    (f.removeItem list child).result = .ok child
      ∧ (f.removeItem list child).forest
        = (f.setItems list ((f.items list).erase (some child))).handOver list
            (leaving (some child) ((f.items list).erase (some child))) [] := by
  unfold removeItem
  cases hpos : f.position? list child with
  | none => exact absurd h (position?_eq_none.1 hpos)
  | some i =>
    have herase : (f.items list).eraseIdx i = (f.items list).erase (some child) := by
      unfold position? at hpos
      rw [List.erase_eq_eraseIdx, hpos]
    refine ⟨rfl, ?_⟩
    simp only
    rw [herase, releaseFromItems_eq,
      items_setItems_self (isLive_of_isList (isList_of_position? hpos))]

theorem removeItem_of_not_mem (h : some child ∉ f.items list) :
    (f.removeItem list child).result = .error (f.notAChild list child)
      ∧ (f.removeItem list child).forest = f := by
  unfold removeItem
  rw [position?_eq_none.2 h]
  exact ⟨rfl, rfl⟩

/-! ## Any number of removals -/

/-- `g` is `f` after `list`, the parent of `child`, has been asked `j` times to remove it. -/
structure Peeled (f : Forest) (list child : NodeId) (j : Nat) (g : Forest) : Prop where
  /-- No node changes but in its items and its link. -/
  shell : ∀ n, SameShell f g n
  items : g.items list = without (some child) j (f.items list)
  itemsOther : ∀ n, n ≠ list → g.items n = f.items n
  parent? : g.parent? child
    = if j < (f.items list).count (some child) then f.self? list else none
  parentOther : ∀ n, n ≠ child → g.parent? n = f.parent? n

theorem peeled_zero (hparent : f.parent? child = f.self? list)
    (hmem : some child ∈ f.items list) : Peeled f list child 0 f where
  shell _ := rfl
  items := by rw [without]
  itemsOther _ _ := rfl
  parent? := by rw [if_pos (List.count_pos_iff.2 hmem), hparent]
  parentOther _ _ := rfl

section Step

variable (h : Peeled f list child j g)

include h

theorem Peeled.mem_items_iff :
    some child ∈ g.items list ↔ j < (f.items list).count (some child) := by
  rw [h.items, mem_without_iff_lt]

theorem Peeled.notAChild_eq : g.notAChild list child = f.notAChild list child := by
  unfold notAChild kindName
  rw [(h.shell list).kind?, (h.shell child).kind?]

theorem Peeled.removeItem (hlist : f.isList list) :
    Peeled f list child (j + 1) (g.removeItem list child).forest := by
  have hlist' : g.isList list := (h.shell list).isList.trans hlist
  have hitems := h.items
  by_cases hmem : some child ∈ g.items list
  · have hlt := h.mem_items_iff.1 hmem
    have herase : (g.items list).erase (some child) = without (some child) (j + 1) (f.items list) := by
      rw [hitems, erase_without]
    rw [(removeItem_of_mem hmem).2, herase]
    refine
      { shell := fun n =>
          (h.shell n).trans ((sameShell_setItems hlist' _ n).trans (sameShell_handOver ..))
        items := ?_
        itemsOther := ?_
        parent? := ?_
        parentOther := ?_ }
    · rw [(sameContents_handOver ..).items, items_setItems_self (isLive_of_isList hlist')]
    · intro n hn
      rw [(sameContents_handOver ..).items, (sameContents_setItems_of_ne _ _ hn).items,
        h.itemsOther n hn]
    · -- The list searches what is left, so it keeps the link for as long as something is found.
      rw [parent?_handOver_of_not_mem List.not_mem_nil, parent?_setItems, self?_setItems, h.parent?,
        if_pos hlt, (h.shell list).self?]
      by_cases hleft : j + 1 < (f.items list).count (some child)
      · simp [mem_leaving, mem_without_iff_lt, hleft]
      · simp [mem_leaving, mem_without_iff_lt, hleft]
    · intro n hn
      have hkept : n ∉ leaving (some child) (without (some child) (j + 1) (f.items list)) :=
        fun hleaving => hn (Option.some.inj (mem_leaving.1 hleaving).1).symm
      rw [parent?_handOver_of_not_mem List.not_mem_nil, parent?_setItems, if_neg (mt And.left hkept),
        h.parentOther n hn]
  · have hle : ¬ j < (f.items list).count (some child) := mt h.mem_items_iff.2 hmem
    rw [(removeItem_of_not_mem hmem).2]
    refine
      { shell := h.shell
        items := ?_
        itemsOther := h.itemsOther
        parent? := ?_
        parentOther := h.parentOther }
    · rw [← erase_without, ← hitems, List.erase_of_not_mem hmem]
    · rw [h.parent?, if_neg hle, if_neg (by omega)]

/-- Nothing that was held is lost while an occurrence is left or callers hold on to the child. -/
theorem Peeled.settled (hf : Settled f)
    (hkept : j < (f.items list).count (some child) ∨ 0 < f.callers child) : Settled g := by
  refine hf.of_kept (fun n => (h.shell n).isLive) (fun n => (h.shell n).callers) ?_
  intro p n hholds
  rcases holds_iff.1 hholds with hslot | hitem
  · exact Or.inl ⟨p, holds_iff.2 (Or.inl (by rwa [(h.shell p).slots]))⟩
  · by_cases hp : p = list
    · subst hp
      by_cases hn : n = child
      · subst hn
        refine hkept.imp (fun hlt => ⟨p, holds_iff.2 (Or.inr ?_)⟩) id
        exact h.mem_items_iff.2 hlt
      · refine Or.inl ⟨p, holds_iff.2 (Or.inr ?_)⟩
        rwa [h.items, mem_without_of_ne fun heq => hn (Option.some.inj heq)]
    · exact Or.inl ⟨p, holds_iff.2 (Or.inr (by rwa [h.itemsOther p hp]))⟩

end Step

theorem performAll_replicate_succ (f : Forest) (e : Edit) (j : Nat) :
    f.performAll (List.replicate (j + 1) e)
      = ((f.performAll (List.replicate j e)).perform e).forest := by
  rw [List.replicate_succ', performAll, List.foldl_append]
  rfl

theorem runAll_replicate_succ (f : Forest) (e : Edit) (j : Nat) :
    f.runAll (List.replicate (j + 1) e) = ((f.runAll (List.replicate j e)).run e).forest := by
  rw [List.replicate_succ', runAll, List.foldl_append]
  rfl

theorem peeled_performAll (hlist : f.isList list) (hchild : f.isLive child)
    (hparent : f.parent? child = f.self? list) (hmem : some child ∈ f.items list) (j : Nat) :
    Peeled f list child j (f.performAll (List.replicate j (.removeItem list child))) := by
  induction j with
  | zero => exact peeled_zero hparent hmem
  | succ j ih =>
    rw [performAll_replicate_succ, perform_removeItem ((ih.shell list).isList.trans hlist)
      ((ih.shell child).isLive.trans hchild)]
    exact ih.removeItem hlist

/-- Letting go of the operands in between makes no difference until the child may be lost. -/
theorem runAll_removeItem_eq (hf : Settled f) (hlist : f.isList list) (hchild : f.isLive child)
    (hparent : f.parent? child = f.self? list) (hmem : some child ∈ f.items list)
    (hkept : j < (f.items list).count (some child) ∨ 0 < f.callers child) :
    f.runAll (List.replicate j (.removeItem list child))
      = f.performAll (List.replicate j (.removeItem list child)) := by
  induction j with
  | zero => rfl
  | succ j ih =>
    have hafter := peeled_performAll hlist hchild hparent hmem (j + 1)
    rw [performAll_replicate_succ] at hafter
    rw [runAll_replicate_succ, performAll_replicate_succ, ih (hkept.imp_left (by omega)),
      run_forest_eq (hafter.settled hf hkept)]

/-! ## The law -/

/-- **Removal peels off one occurrence at a time.** Of any number of requests to remove a node as
    many succeed as it has occurrences, and the others are refused without a change. Each takes away
    the first occurrence that is left, and the list remains the parent until the last has gone. No
    other item, slot or link of any node changes. The caller holds on to the list and the node
    throughout; without that the same holds as long as an occurrence is left. -/
theorem Reachable.removals_peel_off (hf : Reachable f) (hparent : f.parent? child = some list)
    (hmem : some child ∈ f.items list) (j : Nat) :
    ∃ g, f.performAll (List.replicate j (.removeItem list child)) = g
      ∧ (j < (f.items list).count (some child) →
        (g.perform (.removeItem list child)).result = .ok (.removed child))
      ∧ ((f.items list).count (some child) ≤ j →
        (g.perform (.removeItem list child)).result = .error (.tree (f.notAChild list child))
          ∧ (g.perform (.removeItem list child)).forest = g)
      ∧ g.items list = without (some child) j (f.items list)
      ∧ g.parent? child = (if j < (f.items list).count (some child) then some list else none)
      ∧ (∀ n, n ≠ list → g.items n = f.items n)
      ∧ (∀ n, n ≠ child → g.parent? n = f.parent? n)
      ∧ (∀ n, SameShell f g n)
      ∧ (j < (f.items list).count (some child) ∨ 0 < f.callers child →
        f.runAll (List.replicate j (.removeItem list child)) = g) := by
  have hself := (hf.linksAccurate child list hparent).1
  have hchild := isLive_of_parent? hparent
  have hlist : f.isList list :=
    Decidable.byContradiction fun hnot => List.not_mem_nil (items_eq_nil hnot ▸ hmem)
  have hknown : f.parent? child = f.self? list := hparent.trans hself.symm
  have h := peeled_performAll hlist hchild hknown hmem j
  have hperform := perform_removeItem ((h.shell list).isList.trans hlist)
    ((h.shell child).isLive.trans hchild)
  refine ⟨_, rfl, ?_, ?_, h.items, ?_, h.itemsOther, h.parentOther, h.shell, ?_⟩
  · intro hlt
    rw [hperform, Outcome.ofTree, (removeItem_of_mem (h.mem_items_iff.2 hlt)).1]
  · intro hle
    obtain ⟨hresult, hforest⟩ :=
      removeItem_of_not_mem (mt h.mem_items_iff.1 (Nat.not_lt.2 hle))
    rw [hperform]
    exact ⟨h.notAChild_eq ▸ Outcome.result_ofTree_eq_error.2 hresult, hforest⟩
  · rw [h.parent?, hself]
  · exact fun hkept => runAll_removeItem_eq hf.settled hlist hchild hknown hmem hkept

/-- A block that holds an identifier three times, among other items. -/
def thriceHeld : List Edit :=
  let identifier := Catalogue.spec Catalogue.identifier "x" false true
  [.create (Catalogue.spec Catalogue.block "" true true), .create identifier, .create identifier,
    .push 0 (some 1), .push 0 (some 2), .push 0 (some 1), .push 0 none, .push 0 (some 1)]

/-- The link stays when two occurrences have gone and is cut with the third; a fourth request is
    refused. -/
theorem Reachable.removals_peel_off_thriceHeld :
    ((empty.runAll thriceHeld).runAll (.replicate 2 (.removeItem 0 1))).items 0
        = [some 2, none, some 1]
      ∧ ((empty.runAll thriceHeld).runAll (.replicate 2 (.removeItem 0 1))).parent? 1 = some 0
      ∧ ((empty.runAll thriceHeld).runAll (.replicate 3 (.removeItem 0 1))).parent? 1 = none
      ∧ (((empty.runAll thriceHeld).runAll (.replicate 3 (.removeItem 0 1))).perform
          (.removeItem 0 1)).result = .error (.tree (.notAChild "Block" "Identifier")) := by
  have hf := Reachable.start.runAll thriceHeld
  have hparent : (empty.runAll thriceHeld).parent? 1 = some 0 := by decide +kernel
  have hmem : some 1 ∈ (empty.runAll thriceHeld).items 0 := by decide +kernel
  have hcallers : 0 < (empty.runAll thriceHeld).callers 1 := by decide +kernel
  have hcount : ((empty.runAll thriceHeld).items 0).count (some 1) = 3 := by decide +kernel
  have hnames : (empty.runAll thriceHeld).notAChild 0 1 = .notAChild "Block" "Identifier" := by
    decide +kernel
  obtain ⟨g, -, -, -, hitems, hkept, -, -, -, hrun⟩ :=
    Reachable.removals_peel_off hf hparent hmem 2
  obtain ⟨g', -, -, hrefused, -, hcut, -, -, -, hrun'⟩ :=
    Reachable.removals_peel_off hf hparent hmem 3
  rw [hrun (Or.inr hcallers), hrun' (Or.inr hcallers), hitems, hkept, hcut, hcount,
    (hrefused (Nat.le_of_eq hcount)).1, hnames]
  exact ⟨by decide +kernel, rfl, rfl, rfl⟩

end Forest

end NodeForest
