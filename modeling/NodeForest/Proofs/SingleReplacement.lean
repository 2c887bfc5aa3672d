import NodeForest.Proofs.ChildReplacement

set_option autoImplicit false

/-! # A single replacement rewrites one position

A replacement that takes nothing apart writes the new node over the first old one and nowhere else.
The owner stores, releases and adopts in this order, so what becomes of the two links depends on the
places as they are once the new node has been stored. -/

namespace NodeForest.Forest

variable {f g : Forest} {owner old new : NodeId} {i : Nat}

/-! ## The position -/

theorem ChildReplaced.places_single (h : ChildReplaced f owner old new g)
    (hi : (f.places owner).idxOf? (some old) = some i) (hsingle : ¬ f.Splices owner new) :
    g.places owner = (f.places owner).set i (some new) := by
  have hlt := (List.idxOf?_eq_some_iff.1 hi).1
  have hbrought : f.brought owner new = [some new] := if_neg hsingle
  rw [h.places, if_pos rfl, giveWay_eq_exchange hi, hbrought, set_eq_exchange hlt]

/-- In a list the position is an item, and the slots that the list may have stay. -/
theorem ChildReplaced.items_single (h : ChildReplaced f owner old new g)
    (hi : (f.places owner).idxOf? (some old) = some i) (hsingle : ¬ f.Splices owner new)
    (hlist : f.isList owner) :
    g.items owner = (f.items owner).set i (some new) ∧ g.slots owner = f.slots owner := by
  have hplaces := h.places_single hi hsingle
  rw [places_of_isList hlist, places_of_isList ((h.frame owner).isList.trans hlist)] at hplaces
  exact ⟨hplaces, h.slots_of_isList hlist⟩

/-- In any other node the position is a slot, which keeps its name. -/
theorem slots_replaceChild_single (hlist : ¬ f.isList owner)
    (hi : (f.places owner).idxOf? (some old) = some i) (hne : new ≠ owner) :
    (f.replaceChild owner old new).forest.slots owner
        = (f.slots owner).modify i (fun s => { s with occupant := some new })
      ∧ (f.replaceChild owner old new).forest.items owner = f.items owner := by
  have hforest := forest_replaceChild_slot hlist hi hne
  have hsame := sameContents_handOver (f.storeSlot owner i (some new)) owner
    (leaving (some old) ((f.storeSlot owner i (some new)).places owner)) [new] owner
  rw [← hforest] at hsame
  exact ⟨hsame.slots.trans (slots_storeSlot_self ..), hsame.items.trans (items_storeSlot ..)⟩

/-! ## The links -/

/-- What comes in has the owner as its parent, also if it stood there before. -/
theorem ChildReplaced.parent?_new (h : ChildReplaced f owner old new g)
    (hsingle : ¬ f.Splices owner new) (hnew : f.isLive new) : g.parent? new = f.self? owner := by
  rw [h.parent? new hnew, if_pos (mem_brought.2 (Or.inr ⟨hsingle, rfl⟩))]

/-- What gives way loses the link to the owner with its last place there. -/
theorem ChildReplaced.parent?_old (h : ChildReplaced f owner old new g)
    (hsingle : ¬ f.Splices owner new) (hold : f.isLive old) (hne : new ≠ old) :
    g.parent? old = if f.parent? old = f.self? owner ∧ some old ∉ g.places owner then none
      else f.parent? old := by
  have hnot : some old ∉ f.brought owner new := fun hmem =>
    hne ((mem_brought.1 hmem).resolve_left fun hsplices => hsingle hsplices.1).2.symm
  rw [h.parent? old hold, if_neg hnot]
  simp [and_comm]

theorem ChildReplaced.parent?_other (h : ChildReplaced f owner old new g)
    (hsingle : ¬ f.Splices owner new) {n : NodeId} (hold : n ≠ old) (hnew : n ≠ new) :
    g.parent? n = f.parent? n := by
  by_cases hn : f.isLive n
  · have hnot : some n ∉ f.brought owner new := fun hmem =>
      hnew ((mem_brought.1 hmem).resolve_left fun hsplices => hsingle hsplices.1).2
    rw [h.parent? n hn, if_neg hnot, if_neg fun hcut => hold hcut.1]
  · have hn' : ¬ g.isLive n := by rwa [(h.frame n).isLive]
    rw [parent?_of_not_isLive hn, parent?_of_not_isLive hn']

/-! ## The law -/

/-- **A single replacement rewrites exactly one position.** The first place in which the owner finds
    `old` holds `new`, and no other slot or item of any node changes. The owner is the parent of
    `new`; `old` has no parent if the owner was its parent and finds it no more; no other link
    changes, and nothing else of any node. Nothing is assumed of where `new` stands, or of how often
    `old` does. -/
theorem Reachable.single_replacement_exact (hf : Reachable f) (hself : f.self? owner = some owner)
    (hold : some old ∈ f.places owner) (hnew : f.isLive new) (hne : new ≠ owner)
    (hsingle : ¬ f.Splices owner new) :
    ∃ journal g i, f.perform (.replaceChild owner old new)
        = ⟨.ok (.replaced (.single new)), journal, g⟩
      ∧ (f.places owner).idxOf? (some old) = some i
      ∧ (f.isList owner →
        g.items owner = (f.items owner).set i (some new) ∧ g.slots owner = f.slots owner)
      ∧ (¬ f.isList owner →
        g.slots owner = (f.slots owner).modify i (fun s => { s with occupant := some new })
          ∧ g.items owner = f.items owner)
      ∧ (∀ n, n ≠ owner → g.slots n = f.slots n ∧ g.items n = f.items n)
      ∧ g.parent? new = some owner
      ∧ (new ≠ old →
        g.parent? old = if f.parent? old = some owner ∧ some old ∉ g.places owner then none
          else f.parent? old)
      ∧ (∀ n, n ≠ old → n ≠ new → g.parent? n = f.parent? n)
      ∧ ∀ n, SameFrame f g n := by
  have hholds := holds_of_mem_places hold
  have hlive := hf.heldAlive owner old hholds
  obtain ⟨i, hi⟩ := exists_idxOf?_eq_some hold
  have h := childReplaced_replaceChild hold hne
  rw [perform_replaceChild (isLive_of_holds hholds) hlive hnew]
  refine ⟨(f.replaceChild owner old new).journal, (f.replaceChild owner old new).forest, i, ?_, hi,
    h.items_single hi hsingle, ?_, ?_, ?_, ?_, ?_, h.frame⟩
  · rw [Outcome.ofTree, result_replaceChild hold hne, replacementBy, if_neg hsingle]
  · intro hlist
    exact slots_replaceChild_single hlist hi hne
  · intro n hn
    have hsame := h.sameContents hn fun hsource => hsingle hsource.2
    exact ⟨hsame.slots, hsame.items⟩
  · rw [h.parent?_new hsingle hnew, hself]
  · intro hne'
    rw [h.parent?_old hsingle hlive hne', hself]
  · intro n hnold hnnew
    exact h.parent?_other hsingle hnold hnnew

/-- An `if` whose condition is the identifier 1, as is its first branch; the second branch is a
    block that holds the identifier 3, and a second block holds the first one. -/
def sharedCondition : List Edit :=
  let block := Catalogue.spec Catalogue.block "" true true
  let identifier := Catalogue.spec Catalogue.identifier "x" false true
  [.create (Catalogue.spec Catalogue.ifStatement "" false true), .create identifier, .create block,
    .create identifier, .create block, .push 2 (some 3), .fillSlot 0 0 (some 1),
    .fillSlot 0 1 (some 1), .fillSlot 0 2 (some 2), .push 4 (some 2)]

/-- The first block comes into a second place of the `if`, which is its parent again. The identifier
    keeps the other of its two places, and its parent. -/
theorem Reachable.single_replacement_exact_sharedCondition :
    ∃ journal g, (empty.runAll sharedCondition).perform (.replaceChild 0 1 2)
        = ⟨.ok (.replaced (.single 2)), journal, g⟩
      ∧ (g.slots 0).map Slot.occupant = [some 2, some 1, some 2] ∧ g.items 4 = [some 2]
      ∧ g.parent? 2 = some 0 ∧ g.parent? 1 = some 0 := by
  have hself : (empty.runAll sharedCondition).self? 0 = some 0 := by decide +kernel
  have hfinds : some 1 ∈ (empty.runAll sharedCondition).places 0 := by decide +kernel
  have hfirst : ((empty.runAll sharedCondition).places 0).idxOf? (some 1) = some 0 := by
    decide +kernel
  have hlive : (empty.runAll sharedCondition).isLive 2 := by decide +kernel
  have hsingle : ¬ (empty.runAll sharedCondition).Splices 0 2 := by decide +kernel
  have hlist : ¬ (empty.runAll sharedCondition).isList 0 := by decide +kernel
  obtain ⟨journal, g, i, hperform, hi, -, hslots, hothers, hnew, hold, -, hframe⟩ :=
    Reachable.single_replacement_exact (Reachable.start.runAll sharedCondition) hself hfinds hlive
      (by decide) hsingle
  obtain rfl := Option.some.inj (hi.symm.trans hfirst)
  have hoccupants : (g.slots 0).map Slot.occupant = [some 2, some 1, some 2] := by
    rw [(hslots hlist).1]
    decide +kernel
  refine ⟨journal, g, hperform, hoccupants, ?_, hnew, ?_⟩
  · rw [(hothers 4 (by decide)).2]
    decide +kernel
  · have hkept : some 1 ∈ g.places 0 := by
      rw [places_of_not_isList ((hframe 0).isList ▸ hlist), hoccupants]
      decide
    rw [hold (by decide), if_neg fun hcut => hcut.2 hkept]
    decide +kernel

end NodeForest.Forest
