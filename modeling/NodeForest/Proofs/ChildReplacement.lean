import NodeForest.Proofs.Places

set_option autoImplicit false

/-! # Replacing a child

A list replaces an item, any other node the occupant of a slot. Both are one operation on the places
of the owner: the first place in which the old child stands gives way to what the new node brings.
`ChildReplaced` says what every reading of the forest is after that, for every overlap between the
owner, the old child, the new node and what it holds. -/

namespace NodeForest

/-! ## Giving way -/

/-- The places in which `moved` stands instead of the first `a`. -/
def giveWay {α : Type} [BEq α] (places : List α) (a : α) (moved : List α) : List α :=
  match places with
  | [] => []
  | b :: rest => if b == a then moved ++ rest else b :: giveWay rest a moved

section GiveWay

variable {α : Type} [BEq α] [LawfulBEq α] {places moved rest : List α} {a b : α}

theorem giveWay_cons_self (rest : List α) (a : α) (moved : List α) :
    giveWay (a :: rest) a moved = moved ++ rest := by
  rw [giveWay, if_pos (beq_self_eq_true a)]

theorem giveWay_cons_of_ne (h : b ≠ a) (rest moved : List α) :
    giveWay (b :: rest) a moved = b :: giveWay rest a moved := by
  rw [giveWay, if_neg (mt beq_iff_eq.1 h)]

/-- Giving way is an exchange at the first position. -/
theorem giveWay_eq_exchange {i : Nat} (h : places.idxOf? a = some i) (moved : List α) :
    giveWay places a moved = exchange places i moved := by
  induction places generalizing i with
  | nil => cases h
  | cons b rest ih =>
    by_cases hb : b = a
    · subst hb
      obtain rfl : 0 = i := by simpa [List.idxOf?_cons] using h
      rw [giveWay_cons_self]
      rfl
    · obtain ⟨j, hj, rfl⟩ : ∃ j, rest.idxOf? a = some j ∧ j + 1 = i := by
        simpa [List.idxOf?_cons, hb] using h
      rw [giveWay_cons_of_ne hb, ih hj]
      rfl

theorem mem_or_mem_of_mem_giveWay (h : b ∈ giveWay places a moved) : b ∈ places ∨ b ∈ moved := by
  induction places with
  | nil => cases h
  | cons c rest ih =>
    by_cases hc : c = a
    · subst hc
      rw [giveWay_cons_self, List.mem_append] at h
      exact h.symm.imp_left (List.mem_cons_of_mem c)
    · rw [giveWay_cons_of_ne hc, List.mem_cons] at h
      rcases h with rfl | h
      · exact Or.inl List.mem_cons_self
      · exact (ih h).imp_left (List.mem_cons_of_mem c)

/-- Only the element that gives way can be lost. -/
theorem mem_giveWay_of_ne (h : b ∈ places) (hne : b ≠ a) (moved : List α) :
    b ∈ giveWay places a moved := by
  induction places with
  | nil => cases h
  | cons c rest ih =>
    by_cases hc : c = a
    · subst hc
      rw [giveWay_cons_self]
      exact List.mem_append_right moved ((List.mem_cons.1 h).resolve_left hne)
    · rw [giveWay_cons_of_ne hc, List.mem_cons]
      exact (List.mem_cons.1 h).imp_right ih

/-- Neither what gives way nor what comes in: as before. -/
theorem mem_giveWay_iff_of_ne (hne : b ≠ a) (hmoved : b ∉ moved) :
    b ∈ giveWay places a moved ↔ b ∈ places :=
  ⟨fun h => (mem_or_mem_of_mem_giveWay h).resolve_right hmoved,
    fun h => mem_giveWay_of_ne h hne moved⟩

theorem mem_giveWay_of_mem_moved (ha : a ∈ places) (h : b ∈ moved) :
    b ∈ giveWay places a moved := by
  induction places with
  | nil => cases ha
  | cons c rest ih =>
    by_cases hc : c = a
    · subst hc
      rw [giveWay_cons_self]
      exact List.mem_append_left rest h
    · have ha := (List.mem_cons.1 ha).resolve_left fun hac => hc hac.symm
      rw [giveWay_cons_of_ne hc]
      exact List.mem_cons_of_mem c (ih ha)

end GiveWay

namespace Forest

variable {f g : Forest} {owner old new : NodeId}

/-! ## Where the old child stands -/

/-- The answer of an owner that replaces a child by `new`. -/
def replacementBy (f : Forest) (owner new : NodeId) : Replacement :=
  if f.Splices owner new then .spliced (f.items new).length else .single new

theorem position?_eq_idxOf? (hlist : f.isList owner) (old : NodeId) :
    f.position? owner old = (f.places owner).idxOf? (some old) := by
  rw [position?, places_of_isList hlist]

theorem findIdx?_occupant_eq_idxOf? (hlist : ¬ f.isList owner) (old : NodeId) :
    (f.slots owner).findIdx? (·.occupant == some old)
      = (f.places owner).idxOf? (some old) := by
  rw [places_of_not_isList hlist, List.idxOf?, List.findIdx?_map]
  rfl

theorem exists_idxOf?_eq_some {places : List (Option NodeId)} {item : Option NodeId}
    (h : item ∈ places) : ∃ i, places.idxOf? item = some i := by
  rw [← Option.ne_none_iff_exists', Ne, List.idxOf?_eq_none_iff]
  exact not_not_intro h

/-- An owner that finds the child and is not asked to hold itself replaces it. -/
theorem result_replaceChild (hold : some old ∈ f.places owner) (hne : new ≠ owner) :
    (f.replaceChild owner old new).result = .ok (f.replacementBy owner new) := by
  obtain ⟨i, hi⟩ := exists_idxOf?_eq_some hold
  by_cases hlist : f.isList owner
  · rw [← position?_eq_idxOf? hlist] at hi
    exact result_replaceChild_list hi hne
  · have hnot : ¬ f.Splices owner new := fun h => hlist h.1
    rw [← findIdx?_occupant_eq_idxOf? hlist] at hi
    unfold replaceChild replaceInSlot replacementBy
    rw [if_neg hlist, hi, if_neg hnot]
    simp only [if_neg hne]

/-! ## The forest afterwards -/

/-- `g` is `f` after `owner` has replaced its child `old` by what `new` brings. -/
structure ChildReplaced (f : Forest) (owner old new : NodeId) (g : Forest) : Prop where
  size : g.nodes.size = f.nodes.size
  frame : ∀ n, SameFrame f g n
  /-- The first `old` gives way, and what a splice takes apart is left empty. -/
  places : ∀ n, g.places n =
    if n = owner then giveWay (f.places owner) (some old) (f.brought owner new)
    else if n = new ∧ f.Splices owner new then [] else f.places n
  /-- What comes in is adopted; `old` is released if it stands in no place of the owner any more. -/
  parent? : ∀ n, f.isLive n → g.parent? n =
    if some n ∈ f.brought owner new then f.self? owner
    else if n = old ∧ some old ∉ g.places owner ∧ f.parent? old = f.self? owner then none
    else f.parent? n

/-- It is enough to know what is stored before the links are handed over. -/
theorem childReplaced_of_stored {stored : Forest} (hsize : stored.nodes.size = f.nodes.size)
    (hframe : ∀ n, SameFrame f stored n)
    (hplaces : ∀ n, stored.places n =
      if n = owner then giveWay (f.places owner) (some old) (f.brought owner new)
      else if n = new ∧ f.Splices owner new then [] else f.places n)
    (hparent : ∀ n, stored.parent? n = f.parent? n) :
    ChildReplaced f owner old new (stored.handOver owner
      (leaving (some old) (stored.places owner)) ((f.brought owner new).filterMap id)) := by
  refine
    { size := (size_handOver ..).trans hsize
      frame := fun n => (hframe n).trans (sameFrame_handOver ..)
      places := fun n => (sameContents_handOver ..).places.trans (hplaces n)
      parent? := ?_ }
  intro n hn
  rw [(sameContents_handOver ..).places]
  by_cases hbrought : some n ∈ f.brought owner new
  · rw [if_pos hbrought, parent?_handOver_of_mem ((hframe n).isLive.trans hn)
      (mem_filterMap_id.2 hbrought), (hframe owner).self?]
  · rw [if_neg hbrought, parent?_handOver_of_not_mem (mt mem_filterMap_id.1 hbrought), hparent,
      (hframe owner).self?]
    by_cases hold : n = old
    · subst hold
      simp [mem_leaving]
    · have hne : some old ≠ some n := fun h => hold (Option.some.inj h).symm
      simp [mem_leaving, hold, hne]

theorem sameFrame_storeSlot (hlist : ¬ f.isList owner) (i : Nat) (value : Option NodeId)
    (n : NodeId) : SameFrame f (f.storeSlot owner i value) n := by
  unfold SameFrame storeSlot
  rw [node?_modify]
  by_cases hn : n = owner
  · subst hn
    rw [if_pos rfl, Option.map_map]
    unfold Forest.isList at hlist
    cases hnode : f.node? n with
    | none => rfl
    | some node =>
      have hitems : node.items? = none := by simpa [hnode] using hlist
      simp only [Option.map_some, Function.comp_apply, Node.frame, Node.setSlot, hitems]
      have hnames : (node.slots.modify i fun s => { s with occupant := value }).map
          (fun s => { s with occupant := (none : Option NodeId) })
            = node.slots.map fun s => { s with occupant := none } := by
        refine List.ext_getElem? fun j => ?_
        rw [List.getElem?_map, List.getElem?_map, List.getElem?_modify, Option.map_eq_map,
          Option.map_map]
        refine congrArg (Option.map · node.slots[j]?) (funext fun s => ?_)
        rw [Function.comp_apply]
        split <;> rfl
      rw [hnames]
  · rw [if_neg hn]

theorem places_storeSlot (hlist : ¬ f.isList owner) {i : Nat} (hi : i < (f.slots owner).length)
    (value : Option NodeId) (n : NodeId) :
    (f.storeSlot owner i value).places n
      = if n = owner then exchange (f.places owner) i [value] else f.places n := by
  by_cases hn : n = owner
  · subst hn
    have hstored : ¬ (f.storeSlot n i value).isList n := by rwa [isList_storeSlot]
    rw [if_pos rfl, places_of_not_isList hstored, places_of_not_isList hlist,
      occupants_storeSlot hi]
  · rw [if_neg hn]
    exact (sameContents_modify_of_ne f _ hn).places

theorem sameContents_storeBrought_of_ne {n : NodeId} (hn : n ≠ owner)
    (hsource : ¬ (n = new ∧ f.Splices owner new)) (i : Nat) :
    SameContents f (f.storeBrought owner i new) n := by
  unfold storeBrought
  refine (sameContents_setItems_of_ne _ _ hn).trans ?_
  split
  · next hsplices =>
    exact sameContents_setItems_of_ne f [] fun h => hsource ⟨h, hsplices⟩
  · rfl

theorem places_storeBrought (hlist : f.isList owner) (hne : new ≠ owner) (i : Nat) (n : NodeId) :
    (f.storeBrought owner i new).places n =
      if n = owner then exchange (f.places owner) i (f.brought owner new)
      else if n = new ∧ f.Splices owner new then [] else f.places n := by
  have hstored := fun n => (sameShell_storeBrought hlist i new n).isList
  by_cases hn : n = owner
  · subst hn
    rw [if_pos rfl, places_of_isList ((hstored n).trans hlist), items_storeBrought_list hlist,
      places_of_isList hlist]
  · rw [if_neg hn]
    by_cases hsource : n = new ∧ f.Splices owner new
    · obtain ⟨rfl, hsplices⟩ := hsource
      rw [if_pos ⟨rfl, hsplices⟩, places_of_isList ((hstored n).trans hsplices.2.1),
        items_storeBrought_source hsplices hne]
    · rw [if_neg hsource]
      exact (sameContents_storeBrought_of_ne hn hsource i).places

/-- An owner that is no list stores the new child in the slot and hands over. -/
theorem forest_replaceChild_slot (hlist : ¬ f.isList owner) {i : Nat}
    (hi : (f.places owner).idxOf? (some old) = some i) (hne : new ≠ owner) :
    (f.replaceChild owner old new).forest
      = (f.storeSlot owner i (some new)).handOver owner
          (leaving (some old) ((f.storeSlot owner i (some new)).places owner)) [new] := by
  have hpos := (findIdx?_occupant_eq_idxOf? hlist old).trans hi
  have hoccupant : f.slotOccupant owner i = some old := by
    rw [slotOccupant_eq_some, ← places_of_not_isList hlist]
    exact getElem?_of_idxOf? hi
  have hstored : ¬ (f.storeSlot owner i (some new)).isList owner := by rwa [isList_storeSlot]
  unfold replaceChild replaceInSlot
  rw [if_neg hlist, hpos]
  simp only [if_neg hne]
  rw [fillSlot_eq, hoccupant, places_of_not_isList hstored]
  rfl

/-- A replacement that succeeds is `ChildReplaced`. -/
theorem childReplaced_replaceChild (hold : some old ∈ f.places owner) (hne : new ≠ owner) :
    ChildReplaced f owner old new (f.replaceChild owner old new).forest := by
  obtain ⟨i, hi⟩ := exists_idxOf?_eq_some hold
  have hway := giveWay_eq_exchange hi (f.brought owner new)
  by_cases hlist : f.isList owner
  · have hplaces := places_storeBrought hlist hne i
    have hstored : (f.storeBrought owner i new).places owner
        = exchange (f.items owner) i (f.brought owner new) := by
      rw [hplaces, if_pos rfl, places_of_isList hlist]
    have hpos := (position?_eq_idxOf? hlist old).trans hi
    rw [forest_replaceChild_list hpos hne, ← hstored]
    refine childReplaced_of_stored ?_ (fun n => (sameShell_storeBrought hlist i new n).sameFrame)
      ?_ (parent?_storeBrought owner i new)
    · unfold storeBrought
      rw [size_setItems]
      split
      · exact size_setItems ..
      · rfl
    · rw [hway]
      exact hplaces
  · have hnot : ¬ f.Splices owner new := fun h => hlist h.1
    have hpos := (findIdx?_occupant_eq_idxOf? hlist old).trans hi
    have hlt := (List.findIdx?_eq_some_iff_getElem.1 hpos).1
    have hbrought : f.brought owner new = [some new] := if_neg hnot
    have hplaces := places_storeSlot hlist hlt (some new)
    have hforest := forest_replaceChild_slot hlist hi hne
    have hadopted : [new] = (f.brought owner new).filterMap id := by rw [hbrought]; rfl
    rw [hadopted] at hforest
    rw [hforest]
    refine childReplaced_of_stored (size_storeSlot ..) (sameFrame_storeSlot hlist i (some new)) ?_
      (parent?_storeSlot f owner i (some new))
    intro n
    rw [hplaces, hway, hbrought]
    simp [hnot]

/-- A replacement that succeeds has found the child. -/
theorem mem_places_of_result_eq_ok {r : Replacement}
    (hok : (f.replaceChild owner old new).result = .ok r) : some old ∈ f.places owner := by
  refine Decidable.byContradiction fun hnot => ?_
  unfold replaceChild at hok
  by_cases hlist : f.isList owner
  · rw [places_of_isList hlist] at hnot
    rw [if_pos hlist, (f.guardedBy_replaceInList owner old new).1.2 hnot] at hok
    cases hok
  · have hnone : ∀ s ∈ f.slots owner, s.occupant ≠ some old := fun s hs heq =>
      hnot (places_of_not_isList hlist ▸ List.mem_map.2 ⟨s, hs, heq⟩)
    rw [if_neg hlist, (f.guardedBy_replaceInSlot owner old new).1.2 hnone] at hok
    cases hok

/-- A replacement that succeeds is one that changes a child. -/
theorem childReplaced_of_result_eq_ok {r : Replacement}
    (hok : (f.replaceChild owner old new).result = .ok r) :
    some old ∈ f.places owner ∧ r = f.replacementBy owner new
      ∧ ChildReplaced f owner old new (f.replaceChild owner old new).forest := by
  have hold := mem_places_of_result_eq_ok hok
  have hne : new ≠ owner := by
    rcases replaceChild_cases f owner old new with ⟨e, herror, -⟩ | ⟨hne, -⟩
    · rw [hok] at herror
      cases herror
    · exact hne
  rw [result_replaceChild hold hne] at hok
  exact ⟨hold, (Except.ok.inj hok).symm, childReplaced_replaceChild hold hne⟩

/-- The same of an edit, whether it names the owner or leaves it to the parent link. -/
theorem AsksToReplace.childReplaced {e : Edit} {answer : Answer}
    (hask : f.AsksToReplace e owner old new) (hok : (f.perform e).result = .ok answer) :
    some old ∈ f.places owner ∧ answer = .replaced (f.replacementBy owner new)
      ∧ ChildReplaced f owner old new (f.perform e).forest := by
  have hperform : (f.perform e).forest = (f.replaceChild owner old new).forest
      ∧ ((f.replaceChild owner old new).ofTree .replaced).result = .ok answer := by
    have hperform := perform_eq_of_result_eq_ok hok
    rw [hperform] at hok ⊢
    rcases hask with rfl | ⟨rfl, hparent⟩
    · exact ⟨rfl, hok⟩
    · rw [carryOut] at hok ⊢
      rcases f.asks_or_not old with hnone | ⟨p, hp, hself⟩
      · rw [replace_eq_noParent hnone] at hok
        cases hok
      · obtain rfl := Option.some.inj (hp.symm.trans hparent)
        rw [replace_eq_replaceChild hp hself] at hok ⊢
        exact ⟨rfl, hok⟩
  obtain ⟨hforest, hresult⟩ := hperform
  cases hreplaced : (f.replaceChild owner old new).result with
  | error e =>
    rw [Outcome.ofTree, hreplaced] at hresult
    cases hresult
  | ok r =>
    rw [Outcome.ofTree, hreplaced] at hresult
    obtain ⟨hold, rfl, h⟩ := childReplaced_of_result_eq_ok hreplaced
    rw [hforest]
    exact ⟨hold, (Except.ok.inj hresult).symm, h⟩

section Replaced

variable (h : ChildReplaced f owner old new g)

include h

theorem ChildReplaced.slots_of_isList {n : NodeId} (hlist : f.isList n) : g.slots n = f.slots n :=
  (h.frame n).slots hlist

/-- Nothing else changes in a node that is neither the owner nor taken apart. -/
theorem ChildReplaced.sameContents {m : NodeId} (howner : m ≠ owner)
    (hsource : ¬ (m = new ∧ f.Splices owner new)) : SameContents f g m := by
  refine (h.frame m).sameContents ?_
  rw [h.places, if_neg howner, if_neg hsource]

/-- Whatever was held is held still, by the same owner or by the one that replaced its child, except
    for that child. -/
theorem ChildReplaced.held_or (hold : some old ∈ f.places owner) {p n : NodeId}
    (hf : f.holds p n) : (∃ q, g.holds q n) ∨ n = old := by
  rcases holds_iff_places.1 hf with hplace | ⟨hlist, hslot⟩
  · by_cases hp : p = owner
    · subst hp
      by_cases hn : n = old
      · exact Or.inr hn
      · refine Or.inl ⟨p, holds_of_mem_places ?_⟩
        rw [h.places, if_pos rfl]
        exact mem_giveWay_of_ne hplace (fun heq => hn (Option.some.inj heq)) _
    · by_cases hsource : p = new ∧ f.Splices owner new
      · obtain ⟨rfl, hsplices⟩ := hsource
        -- What the source held has moved to the owner.
        have hbrought : some n ∈ f.brought owner p := by
          rwa [brought, if_pos hsplices, ← places_of_isList hsplices.2.1]
        refine Or.inl ⟨owner, holds_of_mem_places ?_⟩
        rw [h.places, if_pos rfl]
        exact mem_giveWay_of_mem_moved hold hbrought
      · refine Or.inl ⟨p, holds_of_mem_places ?_⟩
        rwa [h.places, if_neg hp, if_neg hsource]
  · refine Or.inl ⟨p, holds_iff_places.2 (Or.inr ⟨(h.frame p).isList.trans hlist, ?_⟩)⟩
    rwa [h.slots_of_isList hlist]

theorem ChildReplaced.settled (hold : some old ∈ f.places owner) (hretained : 0 < f.callers old)
    (hf : Settled f) : Settled g := by
  refine hf.of_kept (fun n => (h.frame n).isLive) (fun n => (h.frame n).callers) ?_
  intro p n hholds
  rcases h.held_or hold hholds with hkept | rfl
  · exact Or.inl hkept
  · exact Or.inr hretained

theorem ChildReplaced.splices_iff (p r : NodeId) : g.Splices p r ↔ f.Splices p r :=
  splices_congr (fun n => (h.frame n).isList) (fun n => (h.frame n).kind?) p r

/-- What a node brings depends on its items alone, and those change in the owner and in what it
    takes apart. -/
theorem ChildReplaced.brought_eq {r : NodeId} (howner : r ≠ owner)
    (hsource : ¬ (r = new ∧ f.Splices owner new)) (p : NodeId) :
    g.brought p r = f.brought p r := by
  unfold brought
  simp only [h.splices_iff, (h.sameContents howner hsource).items]

theorem ChildReplaced.replacementBy_eq {r : NodeId} (howner : r ≠ owner)
    (hsource : ¬ (r = new ∧ f.Splices owner new)) (p : NodeId) :
    g.replacementBy p r = f.replacementBy p r := by
  unfold replacementBy
  simp only [h.splices_iff, (h.sameContents howner hsource).items]

end Replaced

/-- The edit is carried out. -/
theorem perform_replaceChild_of_mem (hold : some old ∈ f.places owner) (hne : new ≠ owner)
    (hlive : f.isLive old) (hnew : f.isLive new) :
    (f.perform (.replaceChild owner old new)).result = .ok (.replaced (f.replacementBy owner new))
      ∧ ChildReplaced f owner old new (f.perform (.replaceChild owner old new)).forest := by
  rw [perform_replaceChild (isLive_of_holds (holds_of_mem_places hold)) hlive hnew]
  constructor
  · rw [Outcome.ofTree, result_replaceChild hold hne]
  · exact childReplaced_replaceChild hold hne

/-- Nothing is freed after that if callers hold on to the old child. -/
theorem Reachable.run_replaceChild (hf : Reachable f) (hold : some old ∈ f.places owner)
    (hne : new ≠ owner) (hretained : 0 < f.callers old) (hnew : f.isLive new) :
    (f.run (.replaceChild owner old new)).result = .ok (.replaced (f.replacementBy owner new))
      ∧ ChildReplaced f owner old new (f.run (.replaceChild owner old new)).forest := by
  obtain ⟨hresult, h⟩ :=
    perform_replaceChild_of_mem hold hne (isLive_of_callers_pos hretained) hnew
  refine ⟨hresult, ?_⟩
  rwa [run_forest_eq (h.settled hold hretained hf.settled)]

end Forest

end NodeForest
