import NodeForest.Proofs.Storage

set_option autoImplicit false

/-! # What storing moves

Storing makes an owner hold nodes it did not hold, and makes it, or the source of a splice, hold
some no longer. `Rewiring` ties this to the hand-over that follows: what the owner gains is adopted,
what it loses is released or adopted anew, and what anybody else loses is adopted. Every edit of
children stores in this way, and the laws on links rest on nothing else about it. -/

namespace NodeForest

/-! ## One stretch in the place of one element -/

/-- The places in which `moved` stands instead of the one at `i`. -/
def exchange {α : Type} (places : List α) (i : Nat) (moved : List α) : List α :=
  places.take i ++ moved ++ places.drop (i + 1)

theorem mem_or_mem_of_mem_exchange {α : Type} {places moved : List α} {i : Nat} {a : α}
    (h : a ∈ exchange places i moved) : a ∈ places ∨ a ∈ moved := by
  simp only [exchange, List.mem_append] at h
  rcases h with (h | h) | h
  · exact Or.inl (List.mem_of_mem_take h)
  · exact Or.inr h
  · exact Or.inl (List.mem_of_mem_drop h)

theorem mem_exchange_of_mem_moved {α : Type} {moved : List α} {a : α} (h : a ∈ moved)
    (places : List α) (i : Nat) : a ∈ exchange places i moved :=
  List.mem_append_left _ (List.mem_append_right _ h)

/-- Only the element at `i` can be lost. -/
theorem mem_exchange_or_getElem?_of_mem {α : Type} {places : List α} {a : α} (h : a ∈ places)
    (i : Nat) (moved : List α) : a ∈ exchange places i moved ∨ places[i]? = some a := by
  obtain ⟨j, hj, rfl⟩ := List.getElem_of_mem h
  rcases Nat.lt_trichotomy j i with hlt | rfl | hgt
  · have htake : places[j] ∈ places.take i := List.mem_take_iff_getElem.2 ⟨j, by omega, rfl⟩
    exact Or.inl (List.mem_append_left _ (List.mem_append_left _ htake))
  · exact Or.inr (List.getElem?_eq_getElem hj)
  · have hdrop : places[j] ∈ places.drop (i + 1) :=
      List.mem_drop_iff_getElem.2 ⟨j - (i + 1), by omega, by congr 1; omega⟩
    exact Or.inl (List.mem_append_right _ hdrop)

theorem getElem?_exchange_of_lt {α : Type} {places : List α} {i k : Nat} (hik : i < k)
    (hi : i < places.length) (moved : List α) : (exchange places k moved)[i]? = places[i]? := by
  have htake : i < (places.take k).length := by
    rw [List.length_take]
    omega
  rw [exchange, List.append_assoc, List.getElem?_append_left htake, List.getElem?_take_of_lt hik]

theorem le_length_exchange {α : Type} {places : List α} {i k : Nat} (hik : i ≤ k)
    (hi : i ≤ places.length) (moved : List α) : i ≤ (exchange places k moved).length := by
  rw [exchange, List.length_append, List.length_append, List.length_take]
  omega

theorem set_eq_exchange {α : Type} {places : List α} {i : Nat} (h : i < places.length) (a : α) :
    places.set i a = exchange places i [a] := by
  rw [List.set_eq_take_append_cons_drop, if_pos h, exchange, List.append_assoc]
  rfl

theorem eraseIdx_eq_exchange {α : Type} (places : List α) (i : Nat) :
    places.eraseIdx i = exchange places i [] := by
  rw [List.eraseIdx_eq_take_drop_succ, exchange, List.append_nil]

theorem concat_eq_exchange {α : Type} (places : List α) (a : α) :
    places ++ [a] = exchange places places.length [a] := by
  rw [exchange, List.take_length, List.drop_eq_nil_of_le (by omega), List.append_nil]

/-- What stood in the places stands there still or leaves, if `displaced` is what stood at `i`. -/
theorem mem_exchange_or_mem_leaving {places : List (Option NodeId)} {i : Nat}
    {displaced : Option NodeId} {n : NodeId}
    (hdisplaced : displaced = some n ↔ places[i]? = some (some n)) (h : some n ∈ places)
    (moved : List (Option NodeId)) :
    some n ∈ exchange places i moved ∨ n ∈ Forest.leaving displaced (exchange places i moved) := by
  by_cases hstill : some n ∈ exchange places i moved
  · exact Or.inl hstill
  · have hat := (mem_exchange_or_getElem?_of_mem h i moved).resolve_left hstill
    exact Or.inr (Forest.mem_leaving.2 ⟨hdisplaced.2 hat, hstill⟩)

namespace Forest

/-- `g` stores what `f` stored, except that `owner` has lost nodes that are among `released`, and
    has gained those among `adopted`, which other owners may have lost. -/
structure Rewiring (f g : Forest) (owner : NodeId) (released adopted : List NodeId) : Prop where
  size : g.nodes.size = f.nodes.size
  isLive : ∀ n, g.isLive n = f.isLive n
  self? : ∀ n, g.self? n = f.self? n
  parent? : ∀ n, g.parent? n = f.parent? n
  isList : ∀ n, g.isList n = f.isList n
  /-- No node comes to have slots. -/
  slotless : ∀ n, f.slots n = [] → g.slots n = []
  taken : ∀ n ∈ adopted, g.holds owner n
  gained : ∀ n, g.holds owner n → f.holds owner n ∨ n ∈ adopted
  lost : ∀ n, f.holds owner n → g.holds owner n ∨ n ∈ released
  othersGained : ∀ p ≠ owner, ∀ n, g.holds p n → f.holds p n
  othersLost : ∀ p ≠ owner, ∀ n, f.holds p n → g.holds p n ∨ n ∈ adopted
  /-- What is released is gone, unless the owner has two sorts of places. -/
  gone : (f.isList owner → f.slots owner = []) → ∀ n ∈ released, ¬ g.holds owner n

/-! ## Items -/

theorem mem_filterMap_id {moved : List (Option NodeId)} {n : NodeId} :
    n ∈ moved.filterMap id ↔ some n ∈ moved := by
  simp

theorem item?_eq_some {f : Forest} {list n : NodeId} {i : Nat} :
    f.item? list i = some n ↔ (f.items list)[i]? = some (some n) := by
  simp [item?, Option.join_eq_some_iff]

/-- A list whose items are exchanged gains what moves in. -/
theorem rewiring_setItems {f : Forest} {list : NodeId} (hlist : f.isList list) (i : Nat)
    (moved : List (Option NodeId)) :
    Rewiring f (f.setItems list (exchange (f.items list) i moved)) list
      (leaving (f.item? list i) (exchange (f.items list) i moved)) (moved.filterMap id) := by
  have hitems := items_setItems_self (isLive_of_isList hlist) (exchange (f.items list) i moved)
  have hothers : ∀ p ≠ list,
      SameContents f (f.setItems list (exchange (f.items list) i moved)) p :=
    fun p hp => sameContents_setItems_of_ne f _ hp
  refine
    { size := size_setItems f list _
      isLive := fun n => isLive_modify f list _ n
      self? := fun n => self?_setItems f list _ n
      parent? := fun n => parent?_setItems f list _ n
      isList := fun n => isList_setItems hlist _ n
      slotless := fun n h => by rw [slots_setItems, h]
      taken := ?_
      gained := ?_
      lost := ?_
      othersGained := fun p hp n h => by rwa [(hothers p hp).holds] at h
      othersLost := fun p hp n h => Or.inl (by rwa [(hothers p hp).holds])
      gone := ?_ }
  · intro n hn
    rw [holds_iff, hitems]
    exact Or.inr (mem_exchange_of_mem_moved (mem_filterMap_id.1 hn) _ _)
  · intro n h
    rw [holds_iff, hitems, slots_setItems] at h
    rcases h with h | h
    · exact Or.inl (holds_iff.2 (Or.inl h))
    · rcases mem_or_mem_of_mem_exchange h with h | h
      · exact Or.inl (holds_iff.2 (Or.inr h))
      · exact Or.inr (mem_filterMap_id.2 h)
  · intro n h
    rw [holds_iff, hitems, slots_setItems]
    rcases holds_iff.1 h with h | h
    · exact Or.inl (Or.inl h)
    · exact (mem_exchange_or_mem_leaving item?_eq_some h moved).imp_left Or.inr
  · intro hslots n hn h
    -- Without slots the list holds only what is among its items.
    rw [holds_iff, hitems, slots_setItems, hslots hlist] at h
    rcases h with h | h
    · cases h
    · exact (mem_leaving.1 hn).2 h

/-! ## Splices -/

theorem holds_of_holds_drained {f : Forest} {new p n : NodeId} (hnew : f.isLive new)
    (h : (f.setItems new []).holds p n) : f.holds p n := by
  by_cases hp : p = new
  · subst hp
    rw [holds_iff, slots_setItems, items_setItems_self hnew] at h
    rcases h with h | h
    · exact holds_iff.2 (Or.inl h)
    · cases h
  · rwa [(sameContents_setItems_of_ne f [] hp).holds] at h

theorem holds_drained_or_mem_items {f : Forest} {p n : NodeId} (new : NodeId)
    (h : f.holds p n) : (f.setItems new []).holds p n ∨ some n ∈ f.items new := by
  by_cases hp : p = new
  · subst hp
    rcases holds_iff.1 h with h | h
    · exact Or.inl (holds_iff.2 (Or.inl (by rwa [slots_setItems])))
    · exact Or.inr h
  · exact Or.inl (by rwa [(sameContents_setItems_of_ne f [] hp).holds])

/-- A splice is an exchange of items after its source has been drained. -/
theorem rewiring_storeSplice {f : Forest} {list new : NodeId} (hlist : f.isList list)
    (hnew : f.isList new) (hne : new ≠ list) (i : Nat) :
    Rewiring f (f.storeSplice list i new (f.items new)) list
      (leaving (f.item? list i) ((f.storeSplice list i new (f.items new)).items list))
      ((f.items new).filterMap id) := by
  have hsame : SameContents f (f.setItems new []) list :=
    sameContents_setItems_of_ne f [] (Ne.symm hne)
  have hdrained : (f.setItems new []).isList list := by rwa [hsame.isList]
  have hitem : (f.setItems new []).item? list i = f.item? list i := by
    rw [item?, item?, hsame.items]
  have hstored : (f.storeSplice list i new (f.items new)).items list
      = exchange ((f.setItems new []).items list) i (f.items new) :=
    items_setItems_self (isLive_of_isList hdrained) _
  -- After the draining a splice is an exchange of items like any other.
  have r : Rewiring (f.setItems new []) (f.storeSplice list i new (f.items new)) list
      (leaving (f.item? list i) ((f.storeSplice list i new (f.items new)).items list))
      ((f.items new).filterMap id) := by
    rw [hstored, ← hitem]
    exact rewiring_setItems hdrained i (f.items new)
  refine
    { size := r.size.trans (size_setItems f new [])
      isLive := fun n => (r.isLive n).trans (isLive_modify f new _ n)
      self? := fun n => (r.self? n).trans (self?_setItems f new _ n)
      parent? := fun n => (r.parent? n).trans (parent?_setItems f new _ n)
      isList := fun n => (r.isList n).trans (isList_setItems hnew _ n)
      slotless := fun n h => r.slotless n (by rw [slots_setItems, h])
      taken := r.taken
      gained := fun n h => (r.gained n h).imp_left (holds_of_holds_drained (isLive_of_isList hnew))
      lost := fun n h => r.lost n (by rwa [hsame.holds])
      othersGained := fun p hp n h =>
        holds_of_holds_drained (isLive_of_isList hnew) (r.othersGained p hp n h)
      othersLost := ?_
      gone := fun hslots => r.gone (by rwa [hsame.isList, hsame.slots]) }
  -- What another owner loses, the source has lost, and it moves.
  intro p hp n h
  rcases holds_drained_or_mem_items new h with h | h
  · exact r.othersLost p hp n h
  · exact Or.inr (mem_filterMap_id.2 h)

/-! ## Slots -/

theorem items_eq_nil {f : Forest} {n : NodeId} (h : ¬ f.isList n) : f.items n = [] := by
  rw [isList, Bool.not_eq_true, Option.isSome_eq_false_iff, Option.isNone_iff_eq_none] at h
  rw [items, h]
  rfl

theorem slotOccupant_eq_some {f : Forest} {owner n : NodeId} {i : Nat} :
    f.slotOccupant owner i = some n ↔
      ((f.slots owner).map Slot.occupant)[i]? = some (some n) := by
  simp [slotOccupant, Option.bind_eq_some_iff]

theorem occupants_storeSlot {f : Forest} {owner : NodeId} {i : Nat}
    (hi : i < (f.slots owner).length) (value : Option NodeId) :
    ((f.storeSlot owner i value).slots owner).map Slot.occupant
      = exchange ((f.slots owner).map Slot.occupant) i [value] := by
  rw [slots_storeSlot_self, List.modify_eq_take_cons_drop hi, exchange, List.map_append,
    List.map_cons, List.map_take, List.map_drop, List.append_assoc]
  rfl

/-- A slot gains the node it is filled with. -/
theorem rewiring_storeSlot {f : Forest} {owner : NodeId} {i : Nat}
    (hi : i < (f.slots owner).length) (value : Option NodeId) :
    Rewiring f (f.storeSlot owner i value) owner
      (leaving (f.slotOccupant owner i)
        (((f.storeSlot owner i value).slots owner).map Slot.occupant))
      value.toList := by
  have hslots := occupants_storeSlot hi value
  have hothers : ∀ p ≠ owner, SameContents f (f.storeSlot owner i value) p :=
    fun p hp => sameContents_modify_of_ne f _ hp
  rw [hslots]
  refine
    { size := size_storeSlot f owner i value
      isLive := fun n => isLive_modify f owner _ n
      self? := fun n => self?_storeSlot f owner i value n
      parent? := fun n => parent?_storeSlot f owner i value n
      isList := fun n => isList_storeSlot f owner i value n
      slotless := ?_
      taken := ?_
      gained := ?_
      lost := ?_
      othersGained := fun p hp n h => by rwa [(hothers p hp).holds] at h
      othersLost := fun p hp n h => Or.inl (by rwa [(hothers p hp).holds])
      gone := ?_ }
  · intro n h
    by_cases hn : n = owner
    · subst hn
      rw [h] at hi
      cases hi
    · rw [(hothers n hn).slots, h]
  · intro n hn
    rw [holds_iff, hslots]
    rw [Option.mem_toList] at hn
    exact Or.inl (mem_exchange_of_mem_moved (by simp [hn]) _ _)
  · intro n h
    rw [holds_iff, hslots, items_storeSlot] at h
    rw [Option.mem_toList]
    rcases h with h | h
    · rcases mem_or_mem_of_mem_exchange h with h | h
      · exact Or.inl (holds_iff.2 (Or.inl h))
      · exact Or.inr (List.mem_singleton.1 h).symm
    · exact Or.inl (holds_iff.2 (Or.inr h))
  · intro n h
    rw [holds_iff, hslots, items_storeSlot]
    rcases holds_iff.1 h with h | h
    · exact (mem_exchange_or_mem_leaving slotOccupant_eq_some h [value]).imp_left Or.inl
    · exact Or.inl (Or.inr h)
  · intro hnone n hn h
    -- An owner that has the slot at `i` is no list here, so it has no items.
    have hnlist : ¬ f.isList owner := fun hlist => by
      rw [hnone hlist] at hi
      cases hi
    rw [holds_iff, hslots, items_storeSlot, items_eq_nil hnlist] at h
    rcases h with h | h
    · exact (mem_leaving.1 hn).2 h
    · cases h

/-! ## After the hand-over -/

section HandOver

variable {f g : Forest} {owner n : NodeId} {released adopted : List NodeId}

theorem Rewiring.isLive_handOver (r : Rewiring f g owner released adopted) (n : NodeId) :
    (g.handOver owner released adopted).isLive n = f.isLive n :=
  (sameContents_handOver ..).isLive.trans (r.isLive n)

theorem Rewiring.self?_handOver (r : Rewiring f g owner released adopted) (n : NodeId) :
    (g.handOver owner released adopted).self? n = f.self? n :=
  (sameContents_handOver ..).self?.trans (r.self? n)

theorem Rewiring.parent?_handOver_of_mem (r : Rewiring f g owner released adopted)
    (hn : f.isLive n) (h : n ∈ adopted) :
    (g.handOver owner released adopted).parent? n = f.self? owner := by
  rw [Forest.parent?_handOver_of_mem ((r.isLive n).trans hn) h, r.self?]

theorem Rewiring.parent?_handOver_of_not_mem (r : Rewiring f g owner released adopted)
    (h : n ∉ adopted) :
    (g.handOver owner released adopted).parent? n =
      if n ∈ released ∧ f.parent? n = f.self? owner then none else f.parent? n := by
  rw [Forest.parent?_handOver_of_not_mem h, r.parent?, r.self?]

end HandOver

end Forest

end NodeForest
