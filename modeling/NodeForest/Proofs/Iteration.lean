import NodeForest.Forest.ItemCursor
import NodeForest.Proofs.Untouched

set_option autoImplicit false

/-! # Reading a list that is edited

A cursor counts the items it has given, and each step reads the list as it is then. So what an edit
does to the positions before the cursor decides whether the count still means anything: it does as
long as no item before the cursor goes or moves. `ItemsChanged` says what every edit does to the
items of a list, and `InStep` is what remains true while steps and edits take turns. -/

namespace NodeForest

/-! ## What an edit does to the items of a list -/

/-- A change of the items of a list. -/
inductive ItemsChange where
  | appended (item : Option NodeId)
  | removedAt (i : Nat)
  /-- One node has taken the place of the item at `i`. -/
  | replacedAt (i : Nat) (node : NodeId)
  /-- The items of another list have taken the place of the item at `i`. -/
  | splicedAt (i : Nat) (moved : List (Option NodeId))
  /-- Another list has taken all the items. -/
  | drained
  deriving DecidableEq

namespace ItemsChange

variable {items : List (Option NodeId)} {change : ItemsChange} {index i : Nat}

/-- The items after the change. -/
def apply (items : List (Option NodeId)) : ItemsChange → List (Option NodeId)
  | appended item => items ++ [item]
  | removedAt i => items.eraseIdx i
  | replacedAt i node => items.set i (some node)
  | splicedAt i moved => exchange items i moved
  | drained => []

/-- Whether a change leaves every item before `index` where it is, but for one that a single node
    replaces. -/
def Spares (index : Nat) : ItemsChange → Prop
  | appended _ | replacedAt _ _ => True
  | removedAt i | splicedAt i _ => index ≤ i
  | drained => index = 0

instance (index : Nat) : DecidablePred (Spares index)
  | appended _ | replacedAt _ _ => isTrue trivial
  | removedAt i | splicedAt i _ => inferInstanceAs (Decidable (index ≤ i))
  | drained => inferInstanceAs (Decidable (index = 0))

theorem Spares.le_length_apply (h : change.Spares index) (hle : index ≤ items.length) :
    index ≤ (change.apply items).length := by
  cases change with
  | appended item =>
    rw [apply, List.length_append]
    omega
  | removedAt k =>
    rw [apply, eraseIdx_eq_exchange]
    exact le_length_exchange h hle []
  | replacedAt k node => rwa [apply, List.length_set]
  | splicedAt k moved => exact le_length_exchange h hle moved
  | drained => exact Nat.le_of_eq h

/-- Before `index` an item is the same, or it is the node of a single replacement. -/
theorem Spares.getElem?_apply (h : change.Spares index) (hi : i < index)
    (hle : index ≤ items.length) :
    (change.apply items)[i]? = items[i]?
      ∨ ∃ node, change = replacedAt i node ∧ (change.apply items)[i]? = some (some node) := by
  have hlt : i < items.length := Nat.lt_of_lt_of_le hi hle
  cases change with
  | appended item => exact Or.inl (List.getElem?_append_left hlt)
  | removedAt k =>
    have hik : i < k := Nat.lt_of_lt_of_le hi h
    rw [apply, eraseIdx_eq_exchange]
    exact Or.inl (getElem?_exchange_of_lt hik hlt [])
  | replacedAt k node =>
    by_cases hk : k = i
    · subst hk
      exact Or.inr ⟨node, rfl, List.getElem?_set_self hlt⟩
    · exact Or.inl (List.getElem?_set_ne hk)
  | splicedAt k moved =>
    have hik : i < k := Nat.lt_of_lt_of_le hi h
    exact Or.inl (getElem?_exchange_of_lt hik hlt moved)
  | drained =>
    obtain rfl : index = 0 := h
    omega

end ItemsChange

namespace Forest

/-- What happens to the items of `list` when `owner` has replaced its child `old` by `new`. -/
def changeByReplacement (f : Forest) (list owner old new : NodeId) :
    Replacement → Option ItemsChange
  | .single node => if list = owner then (f.position? list old).map (.replacedAt · node) else none
  | .spliced _ =>
    if list = owner then (f.position? list old).map (.splicedAt · (f.items new))
    else if list = new then some .drained
    else none

/-- What happens to the items of `list` through an edit that succeeds. -/
def changeBy (f : Forest) (list : NodeId) : Edit → Answer → Option ItemsChange
  | .push l item, _ => if list = l then some (.appended item) else none
  | .removeItem l child, _ =>
    if list = l then (f.position? list child).map .removedAt else none
  | .replaceChild owner old new, .replaced r => f.changeByReplacement list owner old new r
  | .replace old new, .replaced r =>
    (f.parent? old).bind fun owner => f.changeByReplacement list owner old new r
  | _, _ => none

/-- What an edit does to the items of `list`, if anything. One that fails does nothing. -/
def change? (f : Forest) (list : NodeId) (e : Edit) : Option ItemsChange :=
  match (f.perform e).result with
  | .ok answer => f.changeBy list e answer
  | .error _ => none

/-- In `g` too `list` is a list, with the items that the change, if any, makes of those in `f`. -/
structure ItemsChanged (f g : Forest) (list : NodeId) (change? : Option ItemsChange) : Prop where
  isList : g.isList list
  items : g.items list = change?.elim (f.items list) (·.apply (f.items list))

variable {f g : Forest} {e : Edit} {list owner old new : NodeId}

theorem SameContents.itemsChanged (h : SameContents f g list) (hlist : f.isList list) :
    ItemsChanged f g list none where
  isList := h.isList.trans hlist
  items := h.items

theorem itemsChanged_fillSlot (hlist : f.isList list) (owner : NodeId) (i : Nat)
    (value : Option NodeId) : ItemsChanged f (f.fillSlot owner i value).2 list none := by
  rw [fillSlot_eq]
  exact
    { isList := by rwa [(sameContents_handOver ..).isList, isList_storeSlot]
      items := by
        rw [(sameContents_handOver ..).items]
        exact items_storeSlot .. }

theorem itemsChanged_push (hlist : f.isList list) (owner : NodeId) (item : Option NodeId) :
    ItemsChanged f (f.push owner item) list
      (if list = owner then some (.appended item) else none) := by
  by_cases howner : list = owner
  · subst howner
    rw [if_pos rfl]
    refine { isList := (isList_push hlist item list).trans hlist, items := ?_ }
    rw [push_eq, (sameContents_handOver ..).items, items_setItems_self (isLive_of_isList hlist)]
    rfl
  · rw [if_neg howner]
    exact (sameContents_push_of_ne item howner).itemsChanged hlist

theorem itemsChanged_removeItem (hlist : f.isList list) (owner child : NodeId) :
    ItemsChanged f (f.removeItem owner child).forest list
      (if list = owner then (f.position? list child).map .removedAt else none) := by
  by_cases howner : list = owner
  · subst howner
    rw [if_pos rfl, removeItem]
    cases f.position? list child with
    | none => exact { isList := hlist, items := rfl }
    | some i =>
      simp only [releaseFromItems_eq]
      exact
        { isList := by rwa [(sameContents_handOver ..).isList, isList_setItems hlist]
          items := by
            rw [(sameContents_handOver ..).items, items_setItems_self (isLive_of_isList hlist)]
            rfl }
  · rw [if_neg howner]
    exact (sameContents_removeItem_of_ne child howner).itemsChanged hlist

theorem ChildReplaced.itemsChanged (h : ChildReplaced f owner old new g)
    (hold : some old ∈ f.places owner) (hlist : f.isList list) :
    ItemsChanged f g list
      (f.changeByReplacement list owner old new (f.replacementBy owner new)) := by
  have hlist' : g.isList list := (h.frame list).isList.trans hlist
  refine { isList := hlist', items := ?_ }
  rw [← places_of_isList hlist', h.places, replacementBy]
  by_cases howner : list = owner
  · subst howner
    obtain ⟨i, hi⟩ := exists_idxOf?_eq_some hold
    have hpos : f.position? list old = some i := (position?_eq_idxOf? hlist old).trans hi
    have hlt := (List.idxOf?_eq_some_iff.1 hi).1
    rw [if_pos rfl, giveWay_eq_exchange hi, places_of_isList hlist, brought]
    rw [places_of_isList hlist] at hlt
    by_cases hsplices : f.Splices list new
    · rw [if_pos hsplices, if_pos hsplices, changeByReplacement, if_pos rfl, hpos]
      rfl
    · rw [if_neg hsplices, if_neg hsplices, changeByReplacement, if_pos rfl, hpos,
        ← set_eq_exchange hlt]
      rfl
  · rw [if_neg howner, places_of_isList hlist]
    by_cases hsplices : f.Splices owner new
    · rw [if_pos hsplices, changeByReplacement, if_neg howner]
      by_cases hnew : list = new
      · rw [if_pos ⟨hnew, hsplices⟩, if_pos hnew]
        rfl
      · rw [if_neg fun hsource => hnew hsource.1, if_neg hnew]
        rfl
    · rw [if_neg fun hsource => hsplices hsource.2, if_neg hsplices, changeByReplacement,
        if_neg howner]
      rfl

/-- **What every edit does to the items of a list.** -/
theorem itemsChanged_perform (hlist : f.isList list) (e : Edit) :
    ItemsChanged f (f.perform e).forest list (f.change? list e) := by
  have hlive := isLive_of_isList hlist
  cases hok : (f.perform e).result with
  | error refusal =>
    rw [change?, hok, (f.atomic_perform e refusal hok).1]
    exact { isList := hlist, items := rfl }
  | ok answer =>
    rw [change?, hok]
    have hreplaced : ∀ {owner old new}, f.AsksToReplace e owner old new →
        ∃ r, answer = .replaced r ∧ ItemsChanged f (f.perform e).forest list
          (f.changeByReplacement list owner old new r) := by
      intro owner old new hask
      obtain ⟨hold, hanswer, h⟩ := hask.childReplaced hok
      exact ⟨_, hanswer, h.itemsChanged hold hlist⟩
    have huntouched : list ∉ f.touchedBy e answer →
        ItemsChanged f (f.perform e).forest list none := by
      intro houter
      refine (sameContents_perform hlive ?_).itemsChanged hlist
      rwa [touched, hok]
    have hperform := perform_eq_of_result_eq_ok hok
    cases e with
    | create spec => exact huntouched List.not_mem_nil
    | gather spec nodes => exact huntouched List.not_mem_nil
    | retain m => exact huntouched List.not_mem_nil
    | letGo m => exact huntouched List.not_mem_nil
    | fillSlot owner i value =>
      rw [hperform, carryOut]
      split
      · exact itemsChanged_fillSlot hlist owner i value
      · exact { isList := hlist, items := rfl }
    | setChild owner name value =>
      rw [hperform, carryOut, Outcome.ofTree, setChild]
      cases Slot.index? (f.slots owner) name with
      | none => exact { isList := hlist, items := rfl }
      | some i => exact itemsChanged_fillSlot hlist owner i value
    | push owner item =>
      rw [hperform]
      exact itemsChanged_push hlist owner item
    | removeItem owner child =>
      rw [hperform]
      exact itemsChanged_removeItem hlist owner child
    | replaceChild owner old new =>
      obtain ⟨r, rfl, h⟩ := hreplaced (Or.inl rfl)
      exact h
    | replace old new =>
      cases hparent : f.parent? old with
      | none =>
        rw [hperform, carryOut, replace_eq_noParent (Or.inl hparent)] at hok
        cases hok
      | some owner =>
        obtain ⟨r, rfl, h⟩ := hreplaced (Or.inr ⟨rfl, hparent⟩)
        simpa only [changeBy, hparent, Option.bind_some] using h

/-- The same if the operands are let go then, as long as the list stays alive. -/
theorem itemsChanged_run (hlist : f.isList list) (hlive : (f.run e).forest.isLive list) :
    ItemsChanged f (f.run e).forest list (f.change? list e) :=
  have hsame : SameContents (f.perform e).forest (f.run e).forest list := sameContents_reclaim hlive
  have h := itemsChanged_perform hlist e
  { isList := hsame.isList.trans h.isList, items := hsame.items.trans h.items }

end Forest

/-! ## Steps and edits in turn -/

/-- What is seen of a list that is read and edited. -/
inductive ReadingEvent where
  /-- The cursor has given the item at position `i`. -/
  | gave (i : Nat) (item : Option NodeId)
  | changed (change : ItemsChange)
  deriving DecidableEq

namespace ReadingEvent

/-- The item that the cursor has given, with its position. -/
def given? : ReadingEvent → Option (Nat × Option NodeId)
  | gave i item => some (i, item)
  | changed _ => none

/-- What the cursor has given, in order, with the positions. -/
def given (history : List ReadingEvent) : List (Nat × Option NodeId) :=
  history.filterMap given?

/-- `now` stands at position `i` where the cursor found `item`: it is that item, or the node that a
    single replacement has put there since. -/
def StandsFor (history : List ReadingEvent) (i : Nat) (item now : Option NodeId) : Prop :=
  now = item ∨ ∃ before node after, now = some node
    ∧ history = before ++ changed (.replacedAt i node) :: after ∧ gave i item ∈ before

variable {history : List ReadingEvent} {i : Nat} {item now : Option NodeId}

theorem given_append (history later : List ReadingEvent) :
    given (history ++ later) = given history ++ given later :=
  List.filterMap_append

theorem gave_mem_of_getElem?_given (h : (given history)[i]? = some (i, item)) :
    gave i item ∈ history := by
  obtain ⟨event, hevent, hgiven⟩ := List.mem_filterMap.1 (List.mem_of_getElem? h)
  cases event with
  | gave j item' =>
    obtain ⟨rfl, rfl⟩ := Prod.mk.inj (Option.some.inj hgiven)
    exact hevent
  | changed change => cases hgiven

theorem StandsFor.append (h : StandsFor history i item now) (later : List ReadingEvent) :
    StandsFor (history ++ later) i item now := by
  rcases h with rfl | ⟨before, node, after, hnow, rfl, hgave⟩
  · exact Or.inl rfl
  · exact Or.inr ⟨before, node, after ++ later, hnow, by rw [List.append_assoc]; rfl, hgave⟩

end ReadingEvent

open ReadingEvent

/-- `Iteration f c history`: a cursor has been started on a list, steps of the cursor and edits of the
    forest have taken turns, and this has led to the forest `f`, the cursor `c` and the events
    `history`. The list stays alive, and no edit takes away or moves an item that the cursor has
    passed; single nodes may be put in the place of such items, and what happens at the cursor or
    behind it, or elsewhere in the forest, is not restricted. -/
inductive Iteration : Forest → ItemCursor → List ReadingEvent → Prop
  | start {f : Forest} {list : NodeId} : f.isList list → Iteration f (.start list) []
  | next {f : Forest} {c : ItemCursor} {history : List ReadingEvent} : Iteration f c history →
      Iteration f (c.next f).2 (history ++ ((c.next f).1.map (gave c.index)).toList)
  | edit {f : Forest} {c : ItemCursor} {history : List ReadingEvent} (e : Edit) :
      Iteration f c history → (∀ change ∈ f.change? c.list e, change.Spares c.index) →
      (f.run e).forest.isLive c.list →
      Iteration (f.run e).forest c (history ++ ((f.change? c.list e).map changed).toList)

/-- The answers to so many steps while the forest stays the same. -/
def ItemCursor.answers (c : ItemCursor) (f : Forest) : Nat → List (Option (Option NodeId))
  | 0 => []
  | n + 1 => (c.next f).1 :: (c.next f).2.answers f n

variable {f g : Forest} {c : ItemCursor} {history : List ReadingEvent}

theorem ItemCursor.next_of_lt {item : Option NodeId}
    (h : (f.items c.list)[c.index]? = some item) :
    c.next f = (some item, ⟨c.list, c.index + 1⟩) := by
  rw [next, h]

theorem ItemCursor.next_of_le (h : (f.items c.list).length ≤ c.index) : c.next f = (none, c) := by
  rw [next, List.getElem?_eq_none h]

/-- At the end every further step gives nothing. -/
theorem ItemCursor.answers_of_le (h : (f.items c.list).length ≤ c.index) (n : Nat) :
    c.answers f n = List.replicate n none := by
  induction n with
  | zero => rfl
  | succ n ih => rw [answers, next_of_le h, ih, List.replicate_succ]

/-- While the forest stays the same, the items that remain are given in order, and no others. -/
theorem ItemCursor.answers_eq (f : Forest) (c : ItemCursor) (more : Nat) :
    c.answers f ((f.items c.list).length - c.index + more)
      = ((f.items c.list).drop c.index).map some ++ List.replicate more none := by
  generalize hleft : (f.items c.list).length - c.index = left
  induction left generalizing c with
  | zero =>
    have hle : (f.items c.list).length ≤ c.index := by omega
    rw [Nat.zero_add, answers_of_le hle, List.drop_eq_nil_of_le hle]
    rfl
  | succ left ih =>
    have hlt : c.index < (f.items c.list).length := by omega
    have hrest := ih ⟨c.list, c.index + 1⟩ (by simp only; omega)
    rw [Nat.add_right_comm, answers, next_of_lt (List.getElem?_eq_getElem hlt),
      List.drop_eq_getElem_cons hlt]
    simp only [hrest, List.map_cons, List.cons_append]

/-- What remains true while a list is read and edited. -/
structure InStep (f : Forest) (c : ItemCursor) (history : List ReadingEvent) : Prop where
  isList : f.isList c.list
  positions : (given history).map Prod.fst = List.range c.index
  index_le : c.index ≤ (f.items c.list).length
  standing : ∀ i < c.index, ∃ item now, (given history)[i]? = some (i, item)
    ∧ (f.items c.list)[i]? = some now ∧ StandsFor history i item now

theorem InStep.start {list : NodeId} (hlist : f.isList list) : InStep f (.start list) [] where
  isList := hlist
  positions := rfl
  index_le := Nat.zero_le _
  standing _ hi := absurd hi (Nat.not_lt_zero _)

theorem InStep.length_given (h : InStep f c history) : (given history).length = c.index := by
  simpa using congrArg List.length h.positions

/-- A step finds an item at the cursor, or the cursor is at the end. -/
theorem InStep.next_cases (h : InStep f c history) :
    (c.index < (f.items c.list).length ∧ ∃ item, (f.items c.list)[c.index]? = some item
        ∧ c.next f = (some item, ⟨c.list, c.index + 1⟩))
      ∨ c.index = (f.items c.list).length ∧ c.next f = (none, c) := by
  rcases Nat.lt_or_eq_of_le h.index_le with hlt | heq
  · have hitem := List.getElem?_eq_getElem hlt
    exact Or.inl ⟨hlt, _, hitem, ItemCursor.next_of_lt hitem⟩
  · exact Or.inr ⟨heq, ItemCursor.next_of_le (Nat.le_of_eq heq.symm)⟩

theorem InStep.next (h : InStep f c history) :
    InStep f (c.next f).2 (history ++ ((c.next f).1.map (gave c.index)).toList) := by
  rcases h.next_cases with ⟨hlt, item, hitem, hnext⟩ | ⟨-, hnext⟩
  · rw [hnext]
    simp only [Option.map_some, Option.toList_some]
    refine { isList := h.isList, positions := ?_, index_le := hlt, standing := ?_ }
    · rw [given_append, List.map_append, h.positions, List.range_succ]
      rfl
    · intro i hi
      rw [given_append]
      rcases Nat.lt_or_eq_of_le (Nat.le_of_lt_succ hi) with hi | rfl
      · obtain ⟨old, now, hgiven, hnow, hstands⟩ := h.standing i hi
        refine ⟨old, now, ?_, hnow, hstands.append _⟩
        rwa [List.getElem?_append_left (h.length_given.symm ▸ hi)]
      · refine ⟨item, item, ?_, hitem, Or.inl rfl⟩
        rw [List.getElem?_append_right (Nat.le_of_eq h.length_given), h.length_given, Nat.sub_self]
        rfl
  · rw [hnext, Option.map_none, Option.toList_none, List.append_nil]
    exact h

/-- A change that spares what the cursor has passed. -/
theorem InStep.changed {change : ItemsChange} (h : InStep f c history)
    (hchange : Forest.ItemsChanged f g c.list (some change)) (hspares : change.Spares c.index) :
    InStep g c (history ++ [.changed change]) := by
  have hgiven : given (history ++ [.changed change]) = given history := by
    rw [given_append]
    exact List.append_nil _
  have hitems : g.items c.list = change.apply (f.items c.list) := hchange.items
  refine
    { isList := hchange.isList
      positions := hgiven.symm ▸ h.positions
      index_le := hitems.symm ▸ hspares.le_length_apply h.index_le
      standing := ?_ }
  intro i hi
  obtain ⟨item, now, hitem, hnow, hstands⟩ := h.standing i hi
  rw [hgiven, hitems]
  rcases hspares.getElem?_apply hi h.index_le with hsame | ⟨node, rfl, hnode⟩
  · exact ⟨item, now, hitem, hsame.trans hnow, hstands.append _⟩
  · refine ⟨item, some node, hitem, hnode, Or.inr ⟨history, node, [], rfl, rfl, ?_⟩⟩
    exact gave_mem_of_getElem?_given hitem

theorem InStep.edit {e : Edit} (h : InStep f c history)
    (hspares : ∀ change ∈ f.change? c.list e, change.Spares c.index)
    (hlive : (f.run e).forest.isLive c.list) :
    InStep (f.run e).forest c (history ++ ((f.change? c.list e).map .changed).toList) := by
  have hchange := Forest.itemsChanged_run h.isList hlive
  cases hwhat : f.change? c.list e with
  | none =>
    rw [hwhat] at hchange
    have hitems : (f.run e).forest.items c.list = f.items c.list := hchange.items
    rw [Option.map_none, Option.toList_none, List.append_nil]
    exact
      { isList := hchange.isList
        positions := h.positions
        index_le := hitems.symm ▸ h.index_le
        standing := hitems.symm ▸ h.standing }
  | some change =>
    rw [hwhat] at hchange
    exact h.changed hchange (hspares change hwhat)

theorem Iteration.inStep (h : Iteration f c history) : InStep f c history := by
  induction h with
  | start hlist => exact .start hlist
  | next _ ih => exact ih.next
  | edit e _ hspares hlive ih => exact ih.edit hspares hlive

/-- **Iteration tolerates edits.** However steps of a cursor and edits take turns, as long as no edit
    takes away or moves an item that the cursor has passed, the cursor is at the number of the items
    it has given, which it has read at each position once and in order, and not beyond the end of
    the list. Each position before the cursor holds the item that was given there, or a node that a
    single replacement has put there since. A step gives nothing exactly if the cursor is at the end,
    and then leaves it there; otherwise it gives the item that the list has at the cursor then. While
    nothing is edited, the items that remain are given in order, and after them none. -/
theorem Iteration.reads_each_position_once (h : Iteration f c history) :
    (given history).length = c.index
      ∧ (given history).map Prod.fst = List.range c.index
      ∧ c.index ≤ (f.items c.list).length
      ∧ (∀ i < c.index, ∃ item now, (given history)[i]? = some (i, item)
        ∧ (f.items c.list)[i]? = some now ∧ StandsFor history i item now)
      ∧ ((c.next f).1 = none ↔ c.index = (f.items c.list).length)
      ∧ ((c.next f).1 = none → (c.next f).2 = c)
      ∧ (∀ item, (c.next f).1 = some item →
        (f.items c.list)[c.index]? = some item ∧ (c.next f).2 = ⟨c.list, c.index + 1⟩)
      ∧ ∀ more, c.answers f ((f.items c.list).length - c.index + more)
        = ((f.items c.list).drop c.index).map some ++ List.replicate more none := by
  have hstep := h.inStep
  refine ⟨hstep.length_given, hstep.positions, hstep.index_le, hstep.standing, ?_⟩
  rcases hstep.next_cases with ⟨hlt, item, hitem, hnext⟩ | ⟨hend, hnext⟩
  · rw [hnext]
    refine ⟨by simp [Nat.ne_of_lt hlt], nofun, ?_, c.answers_eq f⟩
    intro found hfound
    obtain rfl : item = found := Option.some.inj hfound
    exact ⟨hitem, rfl⟩
  · rw [hnext]
    exact ⟨by simp [hend], fun _ => rfl, nofun, c.answers_eq f⟩

/-- A block with three identifiers, a second block with two, and two identifiers that stand nowhere. -/
def editedBlock : List Edit :=
  let block := Catalogue.spec Catalogue.block "" true true
  let identifier := Catalogue.spec Catalogue.identifier "x" false true
  [.create block, .create identifier, .create identifier, .create identifier, .create block,
    .create identifier, .create identifier, .create identifier, .create identifier, .push 0 (some 1),
    .push 0 (some 2), .push 0 (some 3), .push 4 (some 5), .push 4 (some 6)]

/-- The first item is replaced after it was given, a splice takes the place of the next one, the
    item behind that is removed, and a push brings one more item after the end was met. -/
theorem Iteration.reads_each_position_once_editedBlock :
    ∃ f c history, Iteration f c history
      ∧ f.items 0 = [some 7, some 5, some 3, some 8]
      ∧ given history = [(0, some 1), (1, some 5), (2, some 3), (3, some 8)]
      ∧ c.index = 4
      ∧ (c.next f).1 = none
      ∧ StandsFor history 0 (some 1) (some 7) := by
  have started : Iteration (Forest.empty.runAll editedBlock) (.start 0) [] :=
    .start (by decide +kernel)
  have replaced := started.next.edit (.replaceChild 0 1 7) (by decide +kernel) (by decide +kernel)
  have spliced := replaced.edit (.replaceChild 0 2 4) (by decide +kernel) (by decide +kernel)
  have removed := spliced.next.edit (.removeItem 0 6) (by decide +kernel) (by decide +kernel)
  have pushed := removed.next.next.edit (.push 0 (some 8)) (by decide +kernel) (by decide +kernel)
  obtain ⟨-, -, -, hstanding, hend, -⟩ := pushed.next.reads_each_position_once
  refine ⟨_, _, _, pushed.next, by decide +kernel, by decide +kernel, by decide +kernel,
    hend.2 (by decide +kernel), ?_⟩
  obtain ⟨item, now, hgiven, hnow, hstands⟩ := hstanding 0 (by decide +kernel)
  obtain rfl : item = some 1 := by
    have hfirst : (0, item) = (0, some 1) := Option.some.inj (hgiven.symm.trans (by decide +kernel))
    exact (Prod.mk.inj hfirst).2
  obtain rfl : now = some 7 := Option.some.inj (hnow.symm.trans (by decide +kernel))
  exact hstands

end NodeForest
