import NodeForest.Proofs.Rewiring

set_option autoImplicit false

/-! # What each edit of children comes to

An edit either fails and leaves the forest, or stores, which is a rewiring, and hands over. A
replacement has two ways to succeed; `Splices` tells which one it is. -/

namespace NodeForest.Forest

/-- The forest after `owner` has given up and adopted nodes. -/
def HandedOver (f g : Forest) (owner : NodeId) (adopted : List NodeId) : Prop :=
  ∃ stored released, Rewiring f stored owner released adopted
    ∧ g = stored.handOver owner released adopted

theorem handedOver_fillSlot {f : Forest} {owner : NodeId} {i : Nat}
    (hi : i < (f.slots owner).length) (value : Option NodeId) :
    HandedOver f (f.fillSlot owner i value).2 owner value.toList :=
  ⟨_, _, rewiring_storeSlot hi value, fillSlot_eq f owner i value⟩

theorem handedOver_push {f : Forest} {list : NodeId} (hlist : f.isList list)
    (child : Option NodeId) : HandedOver f (f.push list child) list child.toList := by
  -- Appending is an exchange at the end, where nothing is displaced.
  have r := rewiring_setItems hlist (f.items list).length [child]
  have hend : f.item? list (f.items list).length = none := by simp [item?]
  rw [hend, ← concat_eq_exchange] at r
  have hadopted : [child].filterMap id = child.toList := by cases child <;> rfl
  rw [hadopted] at r
  exact ⟨_, _, r, push_eq f list child⟩

/-! ## Positions -/

theorem getElem?_of_idxOf? {places : List (Option NodeId)} {item : Option NodeId} {i : Nat}
    (h : places.idxOf? item = some i) : places[i]? = some item := by
  obtain ⟨hlt, hget, -⟩ := List.idxOf?_eq_some_iff.1 h
  rw [List.getElem?_eq_getElem hlt, hget]

theorem getElem?_of_position? {f : Forest} {list child : NodeId} {i : Nat}
    (h : f.position? list child = some i) : (f.items list)[i]? = some (some child) :=
  getElem?_of_idxOf? h

theorem mem_items_of_position? {f : Forest} {list child : NodeId} {i : Nat}
    (h : f.position? list child = some i) : some child ∈ f.items list :=
  List.mem_of_getElem? (getElem?_of_position? h)

theorem isList_of_position? {f : Forest} {list child : NodeId} {i : Nat}
    (h : f.position? list child = some i) : f.isList list := by
  refine Decidable.byContradiction fun hnlist => ?_
  have hget := getElem?_of_position? h
  rw [items_eq_nil hnlist] at hget
  cases hget

/-- Removal of an item fails and changes nothing, or hands over nothing but what it removes. -/
theorem removeItem_cases (f : Forest) (list child : NodeId) :
    (f.removeItem list child).result = .error (f.notAChild list child)
        ∧ (f.removeItem list child).forest = f
      ∨ (f.removeItem list child).result = .ok child
        ∧ HandedOver f (f.removeItem list child).forest list [] := by
  unfold removeItem
  cases hpos : f.position? list child with
  | none => exact Or.inl ⟨rfl, rfl⟩
  | some i =>
    refine Or.inr ⟨rfl, ?_⟩
    have hlist := isList_of_position? hpos
    have r := rewiring_setItems hlist i []
    rw [item?_eq_some.2 (getElem?_of_position? hpos), ← eraseIdx_eq_exchange] at r
    refine ⟨_, _, r, ?_⟩
    show Forest.releaseFromItems _ list child = _
    rw [releaseFromItems_eq, items_setItems_self (isLive_of_isList hlist)]

/-! ## Replacement -/

/-- Whether `owner` takes `new` apart when it replaces a child by it: both are lists, of exactly one
    kind. -/
def Splices (f : Forest) (owner new : NodeId) : Prop :=
  f.isList owner ∧ f.isList new ∧ f.kind? new = f.kind? owner

/-- Whether a replacement splices depends on kinds and on which nodes are lists. -/
theorem splices_congr {f g : Forest} (hlist : ∀ n, g.isList n = f.isList n)
    (hkind : ∀ n, g.kind? n = f.kind? n) (owner new : NodeId) :
    g.Splices owner new ↔ f.Splices owner new := by
  unfold Splices
  rw [hlist, hlist, hkind, hkind]

theorem spliceItems?_eq_some {f : Forest} {owner new : NodeId} (h : f.Splices owner new) :
    f.spliceItems? owner new = some (f.items new) := by
  obtain ⟨-, hnew, hkind⟩ := h
  simp [spliceItems?, hnew, hkind]

theorem spliceItems?_eq_none {f : Forest} {owner new : NodeId} (hlist : f.isList owner)
    (h : ¬ f.Splices owner new) : f.spliceItems? owner new = none := by
  rw [spliceItems?, if_neg]
  rintro hboth
  rw [Bool.and_eq_true, beq_iff_eq] at hboth
  exact h ⟨hlist, hboth⟩

/-- What a replacement that succeeds does to the forest. -/
inductive Replaced (f : Forest) (owner new : NodeId) : Replacement → Forest → Prop
  /-- The owner has adopted `new`. -/
  | single {g : Forest} : ¬ f.Splices owner new → HandedOver f g owner [new] →
      Replaced f owner new (.single new) g
  /-- The owner has adopted the items of `new`, which holds no item any more. -/
  | spliced {g : Forest} : f.Splices owner new →
      HandedOver f g owner ((f.items new).filterMap id) → g.slots new = f.slots new →
      g.items new = [] → Replaced f owner new (.spliced (f.items new).length) g

theorem handedOver_replaceAt {f : Forest} {list old : NodeId} {i : Nat}
    (hpos : f.position? list old = some i) (new : NodeId) :
    HandedOver f (f.replaceAt list i old new) list [new] := by
  have hlist := isList_of_position? hpos
  have hget := getElem?_of_position? hpos
  have r := rewiring_setItems hlist i [some new]
  rw [item?_eq_some.2 hget, ← set_eq_exchange (List.getElem?_eq_some_iff.1 hget).1] at r
  have heq := replaceAt_eq f list i old new
  rw [items_setItems_self (isLive_of_isList hlist)] at heq
  exact ⟨_, _, r, heq⟩

theorem handedOver_spliceAt {f : Forest} {list old new : NodeId} {i : Nat}
    (hpos : f.position? list old = some i) (hne : new ≠ list) (h : f.Splices list new) :
    HandedOver f (f.spliceAt list i old new (f.items new)) list
      ((f.items new).filterMap id) := by
  have r := rewiring_storeSplice h.1 h.2.1 hne i
  rw [item?_eq_some.2 (getElem?_of_position? hpos)] at r
  exact ⟨_, _, r, spliceAt_eq f list i old new (f.items new)⟩

theorem slots_spliceAt (f : Forest) (list : NodeId) (i : Nat) (old new : NodeId)
    (moved : List (Option NodeId)) (n : NodeId) :
    (f.spliceAt list i old new moved).slots n = f.slots n := by
  rw [spliceAt_eq, (sameContents_handOver ..).slots, storeSplice, slots_setItems, slots_setItems]

theorem items_spliceAt_source {f : Forest} {list new : NodeId} (hne : new ≠ list)
    (hnew : f.isLive new) (i : Nat) (old : NodeId) (moved : List (Option NodeId)) :
    (f.spliceAt list i old new moved).items new = [] := by
  rw [spliceAt_eq, (sameContents_handOver ..).items, storeSplice,
    (sameContents_setItems_of_ne _ _ hne).items, items_setItems_self hnew]

/-- A replacement fails and changes nothing, or is `Replaced`. -/
theorem replaceChild_cases (f : Forest) (owner old new : NodeId) :
    (∃ e, (f.replaceChild owner old new).result = .error e
        ∧ (f.replaceChild owner old new).forest = f)
      ∨ new ≠ owner ∧ ∃ r, (f.replaceChild owner old new).result = .ok r
        ∧ Replaced f owner new r (f.replaceChild owner old new).forest := by
  unfold replaceChild
  by_cases hlist : f.isList owner
  · rw [if_pos hlist, replaceInList]
    cases hpos : f.position? owner old with
    | none => exact Or.inl ⟨_, rfl, rfl⟩
    | some i =>
      by_cases hne : new = owner
      · simp only [if_pos hne]
        exact Or.inl ⟨_, rfl, trivial⟩
      · simp only [if_neg hne]
        by_cases hsplice : f.Splices owner new
        · rw [spliceItems?_eq_some hsplice]
          exact Or.inr ⟨hne, _, rfl, .spliced hsplice (handedOver_spliceAt hpos hne hsplice)
            (slots_spliceAt ..)
            (items_spliceAt_source hne (isLive_of_isList hsplice.2.1) ..)⟩
        · rw [spliceItems?_eq_none hlist hsplice]
          exact Or.inr ⟨hne, _, rfl, .single hsplice (handedOver_replaceAt hpos new)⟩
  · rw [if_neg hlist, replaceInSlot]
    cases hpos : (f.slots owner).findIdx? (·.occupant == some old) with
    | none => exact Or.inl ⟨_, rfl, rfl⟩
    | some i =>
      by_cases hne : new = owner
      · simp only [if_pos hne]
        exact Or.inl ⟨_, rfl, trivial⟩
      · simp only [if_neg hne]
        have hi := (List.findIdx?_eq_some_iff_getElem.1 hpos).1
        exact Or.inr ⟨hne, _, rfl,
          .single (fun h => hlist h.1) (handedOver_fillSlot hi (some new))⟩

/-- A node that is to be replaced leaves it to its parent. -/
theorem replace_cases (f : Forest) (n new : NodeId) :
    (∃ e, (f.replace n new).result = .error e ∧ (f.replace n new).forest = f)
      ∨ ∃ owner, f.parent? n = some owner ∧ new ≠ owner
        ∧ ∃ r, (f.replace n new).result = .ok r
          ∧ Replaced f owner new r (f.replace n new).forest := by
  unfold replace
  cases hparent : f.parent? n with
  | none => exact Or.inl ⟨_, rfl, rfl⟩
  | some owner =>
    cases f.self? n with
    | none => exact Or.inl ⟨_, rfl, rfl⟩
    | some _ =>
      rcases replaceChild_cases f owner n new with herror | ⟨hne, hok⟩
      · exact Or.inl herror
      · exact Or.inr ⟨owner, rfl, hne, hok⟩

end NodeForest.Forest
