import NodeForest.Proofs.Refusals

set_option autoImplicit false

/-! # Replacing an item of a list

A list that replaces an item takes in the new node, or in its stead the items of a list of exactly
its own kind. Either way one stretch of items stands where one item stood, and what follows depends
on that stretch alone: `ItemReplaced` states what a forest reads after such a replacement, for every
overlap between the old node, the new one, the list and the items of both. -/

namespace NodeForest

/-- The node without its items and its link. -/
def Node.shell (n : Node) : Node :=
  { n with items? := n.items?.map fun _ => [], parent? := none }

namespace Forest

variable {f g : Forest}

/-! ## Nodes whose shell stays -/

/-- `n` is the same in `f` and `g`, its items and its link apart. -/
def SameShell (f g : Forest) (n : NodeId) : Prop :=
  (g.node? n).map Node.shell = (f.node? n).map Node.shell

section Shell

variable {n : NodeId}

theorem SameShell.trans {h : Forest} (hfg : SameShell f g n) (hgh : SameShell g h n) :
    SameShell f h n :=
  Eq.trans hgh hfg

theorem SameShell.isLive (h : SameShell f g n) : g.isLive n = f.isLive n := by
  simpa [Forest.isLive] using congrArg Option.isSome h

theorem SameShell.self? (h : SameShell f g n) : g.self? n = f.self? n :=
  bind_of_strip h _ fun _ => rfl

theorem SameShell.kind? (h : SameShell f g n) : g.kind? n = f.kind? n :=
  read_of_strip h (·.kind) fun _ => rfl

theorem SameShell.slots (h : SameShell f g n) : g.slots n = f.slots n :=
  congrArg (·.getD []) (read_of_strip h (·.slots) fun _ => rfl)

theorem SameShell.callers (h : SameShell f g n) : g.callers n = f.callers n :=
  congrArg (·.getD 0) (read_of_strip h (·.callers) fun _ => rfl)

theorem isList_eq (f : Forest) (n : NodeId) :
    f.isList n = ((f.node? n).map (·.items?.isSome)).getD false := by
  unfold Forest.isList
  cases f.node? n <;> rfl

theorem SameShell.isList (h : SameShell f g n) : g.isList n = f.isList n := by
  rw [isList_eq, isList_eq, read_of_strip h (·.items?.isSome) fun node => by simp [Node.shell]]

end Shell

theorem sameShell_setItems {list : NodeId} (hlist : f.isList list) (items : List (Option NodeId))
    (n : NodeId) : SameShell f (f.setItems list items) n := by
  unfold SameShell setItems
  rw [node?_modify]
  by_cases hn : n = list
  · subst hn
    rw [if_pos rfl, Option.map_map]
    unfold Forest.isList at hlist
    cases hnode : f.node? n with
    | none => rfl
    | some node =>
      obtain ⟨old, hold⟩ := Option.isSome_iff_exists.1 (by simpa [hnode] using hlist)
      simp [Node.shell, Node.setItems, hold]
  · rw [if_neg hn]

theorem sameShell_handOver (owner : NodeId) (released adopted : List NodeId) (n : NodeId) :
    SameShell f (f.handOver owner released adopted) n := by
  unfold SameShell
  rw [node?_handOver, Option.map_map]
  refine congrArg (Option.map · (f.node? n)) (funext fun node => ?_)
  rw [Function.comp_apply]
  split
  · rfl
  · split
    · rw [Node.cutLink]
      split <;> rfl
    · rfl

/-! ## What a list takes in -/

instance (f : Forest) (owner new : NodeId) : Decidable (f.Splices owner new) :=
  inferInstanceAs (Decidable (_ ∧ _ ∧ _))

/-- What a list takes in when it replaces an item by `new`. -/
def brought (f : Forest) (list new : NodeId) : List (Option NodeId) :=
  if f.Splices list new then f.items new else [some new]

theorem mem_brought {f : Forest} {list new n : NodeId} : some n ∈ f.brought list new ↔
    f.Splices list new ∧ some n ∈ f.items new ∨ ¬ f.Splices list new ∧ n = new := by
  unfold brought
  split
  · next hsplices => simp [hsplices]
  · next hnot => simp [hnot]

/-- The forest in which what `new` brings stands at position `i` of `list`, and stands no longer in
    a list that was taken apart. -/
def storeBrought (f : Forest) (list : NodeId) (i : Nat) (new : NodeId) : Forest :=
  (if f.Splices list new then f.setItems new [] else f).setItems list
    (exchange (f.items list) i (f.brought list new))

section Stored

variable {list old new : NodeId} {i : Nat}

theorem sameShell_storeBrought (hlist : f.isList list) (i : Nat) (new n : NodeId) :
    SameShell f (f.storeBrought list i new) n := by
  unfold storeBrought
  split
  · next hsplices =>
    have hdrained := sameShell_setItems hsplices.2.1 [] (f := f)
    have hlist' : (f.setItems new []).isList list := (hdrained list).isList.trans hlist
    exact (hdrained n).trans (sameShell_setItems hlist' _ n)
  · exact sameShell_setItems hlist _ n

theorem parent?_storeBrought (list : NodeId) (i : Nat) (new n : NodeId) :
    (f.storeBrought list i new).parent? n = f.parent? n := by
  unfold storeBrought
  rw [parent?_setItems]
  split
  · exact parent?_setItems ..
  · rfl

theorem items_storeBrought_list (hlist : f.isList list) (i : Nat) (new : NodeId) :
    (f.storeBrought list i new).items list = exchange (f.items list) i (f.brought list new) := by
  unfold storeBrought
  refine items_setItems_self ?_ _
  split
  · exact (isLive_modify ..).trans (isLive_of_isList hlist)
  · exact isLive_of_isList hlist

theorem items_storeBrought_source (h : f.Splices list new) (hne : new ≠ list) (i : Nat) :
    (f.storeBrought list i new).items new = [] := by
  unfold storeBrought
  rw [if_pos h, (sameContents_setItems_of_ne _ _ hne).items,
    items_setItems_self (isLive_of_isList h.2.1)]

theorem items_storeBrought_of_ne {n : NodeId} (hlist : n ≠ list)
    (hsource : ¬ (n = new ∧ f.Splices list new)) (i : Nat) :
    (f.storeBrought list i new).items n = f.items n := by
  unfold storeBrought
  rw [(sameContents_setItems_of_ne _ _ hlist).items]
  by_cases hsplices : f.Splices list new
  · have hn : n ≠ new := fun h => hsource ⟨h, hsplices⟩
    rw [if_pos hsplices, (sameContents_setItems_of_ne _ _ hn).items]
  · rw [if_neg hsplices]

/-! ## The replacement -/

theorem result_replaceChild_list (hpos : f.position? list old = some i) (hne : new ≠ list) :
    (f.replaceChild list old new).result
      = .ok (if f.Splices list new then .spliced (f.items new).length else .single new) := by
  have hlist := isList_of_position? hpos
  unfold replaceChild replaceInList
  rw [if_pos hlist, hpos]
  simp only [if_neg hne]
  by_cases hsplices : f.Splices list new
  · rw [spliceItems?_eq_some hsplices, if_pos hsplices]
  · rw [spliceItems?_eq_none hlist hsplices, if_neg hsplices]

theorem forest_replaceChild_list (hpos : f.position? list old = some i) (hne : new ≠ list) :
    (f.replaceChild list old new).forest
      = (f.storeBrought list i new).handOver list
          (leaving (some old) (exchange (f.items list) i (f.brought list new)))
          ((f.brought list new).filterMap id) := by
  have hlist := isList_of_position? hpos
  have hi := (List.getElem?_eq_some_iff.1 (getElem?_of_position? hpos)).1
  have hitems := items_storeBrought_list hlist i new
  unfold replaceChild replaceInList
  rw [if_pos hlist, hpos]
  simp only [if_neg hne]
  by_cases hsplices : f.Splices list new
  · have hstored : f.storeSplice list i new (f.items new) = f.storeBrought list i new := by
      unfold storeSplice storeBrought brought exchange
      rw [if_pos hsplices, if_pos hsplices, (sameContents_setItems_of_ne f [] (Ne.symm hne)).items]
    rw [spliceItems?_eq_some hsplices]
    simp only
    rw [spliceAt_eq, hstored, hitems, brought, if_pos hsplices]
  · have hstored : f.setItems list ((f.items list).set i (some new)) = f.storeBrought list i new := by
      unfold storeBrought brought
      rw [if_neg hsplices, if_neg hsplices, set_eq_exchange hi]
    rw [spliceItems?_eq_none hlist hsplices]
    simp only
    rw [replaceAt_eq, hstored, hitems, brought, if_neg hsplices]
    rfl

end Stored

/-- `g` is `f` after `list` has replaced its item `old` at position `i` by what `new` brings. -/
structure ItemReplaced (f : Forest) (list : NodeId) (i : Nat) (old new : NodeId) (g : Forest) :
    Prop where
  /-- No node changes but in its items and its link. -/
  shell : ∀ n, SameShell f g n
  items : g.items list = exchange (f.items list) i (f.brought list new)
  drained : f.Splices list new → g.items new = []
  itemsOther : ∀ n, n ≠ list → ¬ (n = new ∧ f.Splices list new) → g.items n = f.items n
  adopted : ∀ n, some n ∈ f.brought list new → f.isLive n → g.parent? n = f.self? list
  /-- A link to the list is cut if the list has given up its last such item. -/
  displaced : some old ∉ f.brought list new →
    g.parent? old = if some old ∉ g.items list ∧ f.parent? old = f.self? list then none
      else f.parent? old
  parentOther : ∀ n, n ≠ old → some n ∉ f.brought list new → g.parent? n = f.parent? n

section Replaced

variable {list old new : NodeId} {i : Nat}

theorem itemReplaced_replaceChild (hpos : f.position? list old = some i) (hne : new ≠ list) :
    ItemReplaced f list i old new (f.replaceChild list old new).forest := by
  have hlist := isList_of_position? hpos
  have hstored := fun n => sameShell_storeBrought hlist i new n
  rw [forest_replaceChild_list hpos hne]
  refine
    { shell := fun n => (hstored n).trans (sameShell_handOver ..)
      items := ?_
      drained := ?_
      itemsOther := ?_
      adopted := ?_
      displaced := ?_
      parentOther := ?_ }
  · rw [(sameContents_handOver ..).items, items_storeBrought_list hlist]
  · intro hsplices
    rw [(sameContents_handOver ..).items, items_storeBrought_source hsplices hne]
  · intro n hn hsource
    rw [(sameContents_handOver ..).items, items_storeBrought_of_ne hn hsource]
  · intro n hn hlive
    rw [parent?_handOver_of_mem ((hstored n).isLive.trans hlive) (mem_filterMap_id.2 hn),
      (hstored list).self?]
  · intro hold
    rw [parent?_handOver_of_not_mem (mt mem_filterMap_id.1 hold), parent?_storeBrought,
      (hstored list).self?, (sameContents_handOver ..).items, items_storeBrought_list hlist]
    simp [mem_leaving]
  · intro n hn hnot
    have hkept : n ∉ leaving (some old) (exchange (f.items list) i (f.brought list new)) := by
      intro h
      exact hn (Option.some.inj (mem_leaving.1 h).1).symm
    rw [parent?_handOver_of_not_mem (mt mem_filterMap_id.1 hnot), parent?_storeBrought]
    simp [hkept]

/-- Nobody but the list comes to hold a node. -/
theorem ItemReplaced.holds_or (h : ItemReplaced f list i old new g) {p n : NodeId}
    (hg : g.holds p n) : f.holds p n ∨ p = list ∧ some n ∈ f.brought list new := by
  rw [holds_iff, (h.shell p).slots] at hg
  rcases hg with hg | hg
  · exact Or.inl (holds_iff.2 (Or.inl hg))
  · by_cases hp : p = list
    · subst hp
      rw [h.items] at hg
      rcases mem_or_mem_of_mem_exchange hg with hg | hg
      · exact Or.inl (holds_iff.2 (Or.inr hg))
      · exact Or.inr ⟨rfl, hg⟩
    · by_cases hsource : p = new ∧ f.Splices list new
      · obtain ⟨rfl, hsplices⟩ := hsource
        rw [h.drained hsplices] at hg
        cases hg
      · rw [h.itemsOther p hp hsource] at hg
        exact Or.inl (holds_iff.2 (Or.inr hg))

/-- Whatever was held is held still, by the same owner or by the list, except for the old item. -/
theorem ItemReplaced.held_or (h : ItemReplaced f list i old new g)
    (hold : (f.items list)[i]? = some (some old)) {p n : NodeId} (hf : f.holds p n) :
    (∃ q, g.holds q n) ∨ n = old := by
  rcases holds_iff.1 hf with hf | hf
  · exact Or.inl ⟨p, holds_iff.2 (Or.inl (by rwa [(h.shell p).slots]))⟩
  · by_cases hp : p = list
    · subst hp
      rcases mem_exchange_or_getElem?_of_mem hf i (f.brought p new) with hkept | hat
      · exact Or.inl ⟨p, holds_iff.2 (Or.inr (by rwa [h.items]))⟩
      · rw [hold] at hat
        exact Or.inr (Option.some.inj (Option.some.inj hat)).symm
    · by_cases hsource : p = new ∧ f.Splices list new
      · obtain ⟨rfl, hsplices⟩ := hsource
        have hbrought : some n ∈ f.brought list p := by rwa [brought, if_pos hsplices]
        refine Or.inl ⟨list, holds_iff.2 (Or.inr ?_)⟩
        rw [h.items]
        exact mem_exchange_of_mem_moved hbrought _ _
      · exact Or.inl ⟨p, holds_iff.2 (Or.inr (by rwa [h.itemsOther p hp hsource]))⟩

end Replaced

/-! ## Splices -/

/-- **A splice is exact.** The items of `new`, placeholders included, stand where the first `old`
    stood, `new` is left without items, and no other place changes. What has moved has the list as
    its parent; `old` keeps that link only if it is an item of the list still; no other link
    changes. Nothing is assumed of what `new` contains. -/
theorem Reachable.splice_exact (hf : Reachable f) {list old new : NodeId} {i : Nat}
    (hself : f.self? list = some list) (hold : (f.items list).idxOf? (some old) = some i)
    (hnew : f.isList new) (hkind : f.kind? new = f.kind? list) (hne : new ≠ list) :
    ∃ journal g, f.perform (.replaceChild list old new)
        = ⟨.ok (.replaced (.spliced (f.items new).length)), journal, g⟩
      ∧ g.items list = (f.items list).take i ++ f.items new ++ (f.items list).drop (i + 1)
      ∧ g.items new = []
      ∧ (∀ n, some n ∈ f.items new → g.parent? n = some list)
      ∧ (some old ∉ f.items new →
        g.parent? old = if some old ∉ g.items list ∧ f.parent? old = some list then none
          else f.parent? old)
      ∧ (∀ n, g.slots n = f.slots n)
      ∧ (∀ n, n ≠ list → n ≠ new → g.items n = f.items n)
      ∧ (∀ n, n ≠ old → some n ∉ f.items new → g.parent? n = f.parent? n)
      ∧ ∀ n, g.isLive n = f.isLive n := by
  have hlist : f.isList list := isList_of_position? hold
  have hsplices : f.Splices list new := ⟨hlist, hnew, hkind⟩
  have hbrought : f.brought list new = f.items new := if_pos hsplices
  have hlive : f.isLive old :=
    hf.heldAlive list old (holds_iff.2 (Or.inr (mem_items_of_position? hold)))
  have h := itemReplaced_replaceChild hold hne
  rw [perform_replaceChild (isLive_of_isList hlist) hlive (isLive_of_isList hnew)]
  refine ⟨(f.replaceChild list old new).journal, (f.replaceChild list old new).forest, ?_, ?_⟩
  · rw [Outcome.ofTree, result_replaceChild_list hold hne, if_pos hsplices]
  · refine ⟨?_, h.drained hsplices, ?_, ?_, fun n => (h.shell n).slots, ?_, ?_,
      fun n => (h.shell n).isLive⟩
    · rw [h.items, hbrought, exchange]
    · intro n hn
      have hmoved : f.isLive n := hf.heldAlive new n (holds_iff.2 (Or.inr hn))
      rw [h.adopted n (hbrought.symm ▸ hn) hmoved, hself]
    · intro hnot
      rw [h.displaced (hbrought.symm ▸ hnot), hself]
    · intro n hnlist hnnew
      exact h.itemsOther n hnlist fun hsource => hnnew hsource.1
    · intro n hnold hnot
      exact h.parentOther n hnold (hbrought.symm ▸ hnot)

/-- A block that holds an identifier twice and a second block between, which holds the identifier as
    well, a placeholder, the first block and itself. -/
def tangledBlocks : List Edit :=
  let block := Catalogue.spec Catalogue.block "" true true
  [.create block, .create block, .create (Catalogue.spec Catalogue.identifier "x" false true),
    .push 0 (some 2), .push 0 (some 1), .push 0 (some 2), .push 1 (some 2), .push 1 none,
    .push 1 (some 0), .push 1 (some 1)]

theorem Reachable.splice_exact_tangledBlocks :
    ((empty.runAll tangledBlocks).perform (.replaceChild 0 1 1)).forest.items 0
        = [some 2, some 2, none, some 0, some 1, some 2]
      ∧ ((empty.runAll tangledBlocks).perform (.replaceChild 0 1 1)).forest.parent? 0 = some 0 := by
  have hself : (empty.runAll tangledBlocks).self? 0 = some 0 := by decide +kernel
  have hold : ((empty.runAll tangledBlocks).items 0).idxOf? (some 1) = some 1 := by decide +kernel
  have hnew : (empty.runAll tangledBlocks).isList 1 := by decide +kernel
  obtain ⟨journal, g, hperform, hitems, -, hmoved, -⟩ :=
    Reachable.splice_exact (Reachable.start.runAll tangledBlocks) hself hold hnew
      (by decide +kernel) (by decide)
  rw [hperform]
  exact ⟨hitems.trans (by decide +kernel), hmoved 0 (by decide +kernel)⟩

end Forest

end NodeForest
