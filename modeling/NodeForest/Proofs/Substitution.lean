import NodeForest.Catalogue
import NodeForest.Proofs.ChildReplacement
import NodeForest.Proofs.Paths
import NodeForest.Proofs.SnapshotRecursion

set_option autoImplicit false

/-! # A replacement substitutes in the snapshot

To one who sees the snapshot only, a replacement somewhere in a tree puts the snapshot of the new
node, or its items, in one place, and leaves all others as they are. A replacement changes the
places of two nodes, the owner and the list it takes apart. A walk from the root comes to the owner
on one path and to the other node not at all, so the change shows along that path and nowhere
else. -/

namespace NodeForest

namespace Snapshot

/-- The items of a list. -/
def items : Snapshot → List (Option Snapshot)
  | node _ _ => []
  | list _ items => items

/-- Changes what stands in place `i`. -/
def modifyPlace (i : Nat) (change : Option Snapshot → Option Snapshot) : Snapshot → Snapshot
  | node kind slots =>
    node kind (slots.modify i fun s => { s with occupant := change s.occupant })
  | list kind items => list kind (items.modify i change)

/-- Changes the snapshot that a path leads to. -/
def modifyAt (change : Snapshot → Snapshot) : (path : List Nat) → Snapshot → Snapshot
  | [], s => change s
  | i :: path, s => s.modifyPlace i (Option.map (modifyAt change path))

/-- Puts the items of `t` in place `i` of a list. -/
def spliceItems (i : Nat) (s t : Snapshot) : Snapshot :=
  match s with
  | node kind slots => node kind slots
  | list kind items => list kind (exchange items i t.items)

/-- What a replacement at position `i` by the node that `t` shows makes of `s`. -/
def substitute (i : Nat) (r : Replacement) (s t : Snapshot) : Snapshot :=
  match r with
  | .single _ => s.modifyPlace i fun _ => some t
  | .spliced _ => s.spliceItems i t

end Snapshot

/-! ## Rows with one place changed -/

section Rows

variable {α β : Type} {φ ψ : α → Option β} {row : List α} {i : Nat}

theorem map_exchange (φ : α → β) (row moved : List α) (i : Nat) :
    (exchange row i moved).map φ = exchange (row.map φ) i (moved.map φ) := by
  simp [exchange, List.map_take, List.map_drop]

theorem exchange_eq_modify (h : i < row.length) (a : α) :
    exchange row i [a] = row.modify i fun _ => a := by
  rw [List.modify_eq_take_cons_drop h, exchange, List.append_assoc]
  rfl

theorem exchange_congr {places places' moved : List β} (h : ∀ j, j ≠ i → places[j]? = places'[j]?) :
    exchange places i moved = exchange places' i moved := by
  have htake : places.take i = places'.take i := by
    refine List.ext_getElem? fun j => ?_
    rw [List.getElem?_take, List.getElem?_take]
    split
    · exact h j (by omega)
    · rfl
  have hdrop : places.drop (i + 1) = places'.drop (i + 1) := by
    refine List.ext_getElem? fun j => ?_
    rw [List.getElem?_drop, List.getElem?_drop]
    exact h _ (by omega)
  rw [exchange, exchange, htake, hdrop]

theorem length_of_mapM {shown : List β} (h : row.mapM φ = some shown) :
    shown.length = row.length := by
  simpa using (congrArg List.length (mapM_eq_some.1 h)).symm

theorem mapM_exchange {shown : List β} {moved : List α} {more : List β}
    (hshown : row.mapM φ = some shown) (hmoved : moved.mapM ψ = some more)
    (hothers : ∀ j a, j ≠ i → row[j]? = some a → ψ a = φ a) :
    (exchange row i moved).mapM ψ = some (exchange shown i more) := by
  rw [mapM_eq_some] at hshown hmoved ⊢
  rw [map_exchange, map_exchange, hmoved, ← hshown]
  refine exchange_congr fun j hj => ?_
  rw [List.getElem?_map, List.getElem?_map]
  cases h : row[j]? with
  | none => rfl
  | some a => exact congrArg some (hothers j a hj h)

theorem mapM_modify {shown : List β} {change : β → β} (hshown : row.mapM φ = some shown)
    (hi : ∀ a b, row[i]? = some a → φ a = some b → ψ a = some (change b))
    (hothers : ∀ j a, j ≠ i → row[j]? = some a → ψ a = φ a) :
    row.mapM ψ = some (shown.modify i change) := by
  rw [mapM_eq_some] at hshown ⊢
  refine List.ext_getElem? fun j => ?_
  have hj : (row[j]?).map φ = (shown[j]?).map some := by
    rw [← List.getElem?_map, hshown, List.getElem?_map]
  rw [List.getElem?_map, List.getElem?_map, List.getElem?_modify]
  cases hrow : row[j]? with
  | none => simpa [hrow] using hj
  | some a =>
    rw [hrow, Option.map_some] at hj
    obtain ⟨b, hshow, hb⟩ := Option.map_eq_some_iff.1 hj.symm
    rw [hshow]
    by_cases hji : i = j
    · subst hji
      simp [hi a b hrow hb.symm]
    · simp [hji, hothers j a (Ne.symm hji) hrow, ← hb]

end Rows

namespace Node

theorem portray_modify (n : Node) (shown : List (Option Snapshot)) (i : Nat)
    (change : Option Snapshot → Option Snapshot) :
    n.portray (shown.modify i change) = (n.portray shown).modifyPlace i change := by
  cases hitems : n.items? with
  | some items =>
    rw [n.portray_of_some hitems]
    rfl
  | none =>
    rw [n.portray_of_none hitems]
    refine congrArg (Snapshot.node n.kind.name) (List.ext_getElem? fun j => ?_)
    simp only [List.getElem?_zipWith, List.getElem?_modify]
    cases n.slots[j]? with
    | none => rfl
    | some s =>
      cases shown[j]? with
      | none => rfl
      | some child =>
        by_cases hj : i = j
        · simp [hj]
        · simp [hj]

theorem portray_frame (n : Node) : n.frame.portray = n.portray := by
  funext shown
  cases hitems : n.items? with
  | some items => simp [frame, portray, hitems]
  | none => simp [frame, portray, hitems, List.zipWith_map_left]

end Node

namespace Forest

variable {f g : Forest} {n m : NodeId} {node : Node} {s : Snapshot} {shown : List (Option Snapshot)}

/-! ## Snapshots and places -/

theorem snapshot?_eq_some :
    f.snapshot? n = some s ↔ ∃ node shown, f.node? n = some node
      ∧ (f.places n).mapM (snapshotOfPlace f.snapshot?) = some shown ∧ node.portray shown = s := by
  rw [snapshot?_eq, places]
  cases f.node? n with
  | none => simp
  | some node => simp [Option.map_eq_some_iff]

/-- The snapshot in `g` of a node that was `node` in another forest, up to its places. -/
theorem snapshot?_of_portray (hnode : (g.node? n).map Node.portray = some node.portray)
    (hshown : (g.places n).mapM (snapshotOfPlace g.snapshot?) = some shown) :
    g.snapshot? n = some (node.portray shown) := by
  obtain ⟨node', hg, hportray⟩ := Option.map_eq_some_iff.1 hnode
  exact snapshot?_eq_some.2 ⟨node', shown, hg, hshown, by rw [hportray]⟩

/-- A change below `root` that shows at `p` only shows along the path to `p` only. -/
theorem snapshot?_modifyAt {p root : NodeId} {path : List Nat} {change : Snapshot → Snapshot}
    (hsize : g.nodes.size = f.nodes.size) (honce : f.OnePathEach root)
    (hpath : f.follow root path = some p)
    (hsame : ∀ m, f.Visits root m → m ≠ p → SameContents f g m)
    (hp : ∀ t, f.snapshot? p = some t → g.snapshot? p = some (change t))
    (hs : f.snapshot? root = some s) : g.snapshot? root = some (s.modifyAt change path) := by
  induction path generalizing root s with
  | nil =>
    obtain rfl := Option.some.inj hpath
    exact hp s hs
  | cons i rest ih =>
    obtain ⟨c, hc, hrest⟩ := follow_cons_eq_some.1 hpath
    obtain ⟨node, shown, hnode, hshown, rfl⟩ := snapshot?_eq_some.1 hs
    have hbelow : ∀ {j c'}, f.childAt root j = some c' → f.Visits root c' := fun hc' =>
      .single (stepsTo_iff_exists_childAt.2 ⟨_, hc'⟩)
    have hvisits : f.Visits c p := visits_iff_exists_follow.2 ⟨rest, hrest⟩
    have hroot : SameContents f g root := by
      refine hsame root .refl fun heq => ?_
      exact honce.not_visits_root hc (heq ▸ hvisits)
    rw [Snapshot.modifyAt, ← Node.portray_modify]
    refine snapshot?_of_portray ?_ ?_
    · rw [hroot.read Node.portray fun _ => rfl, hnode]
      rfl
    · rw [hroot.places]
      refine mapM_modify hshown ?_ ?_
      · -- The next node on the path.
        intro place shown' hplace hshown'
        obtain rfl := Option.some.inj (hplace.symm.trans (childAt_eq_some.1 hc))
        obtain ⟨t, ht, rfl⟩ := Option.map_eq_some_iff.1 hshown'
        have hnext := ih (honce.childAt hc) hrest (fun m hm => hsame m ((hbelow hc).trans hm)) ht
        rw [snapshotOfPlace, hnext]
        rfl
      · -- What is below the other places does not come to `p`.
        intro j place hj hplace
        cases place with
        | none => rfl
        | some c' =>
          have hc' := childAt_eq_some.2 hplace
          refine congrArg (Option.map some) (snapshot?_congr hsize fun m hm => ?_)
          refine hsame m ((hbelow hc').trans hm) ?_
          rintro rfl
          exact honce.not_visits_of_ne hc' hc hj hm hvisits

/-! ## The owner -/

section Owner

variable {owner old new : NodeId} {i : Nat} {t : Snapshot}

theorem isSome_items?_of_isList (hlist : f.isList n) (hnode : f.node? n = some node) :
    ∃ items, node.items? = some items := by
  rw [isList, hnode] at hlist
  exact Option.isSome_iff_exists.1 hlist

theorem SameFrame.portray? (h : SameFrame f g n) (hnode : f.node? n = some node) :
    (g.node? n).map Node.portray = some node.portray := by
  rw [h.read Node.portray Node.portray_frame, hnode]
  rfl

/-- The snapshot of a list shows what stands among its items. -/
theorem mapM_items_of_isList (hlist : f.isList n) (hs : f.snapshot? n = some s) :
    (f.items n).mapM (snapshotOfPlace f.snapshot?) = some s.items := by
  obtain ⟨node, shown, hnode, hshown, rfl⟩ := snapshot?_eq_some.1 hs
  obtain ⟨items, hitems⟩ := isSome_items?_of_isList hlist hnode
  rw [← places_of_isList hlist, hshown, node.portray_of_some hitems]
  rfl

/-- The owner's own snapshot, if what stands elsewhere and what comes in show the same as before. -/
theorem ChildReplaced.snapshot?_owner (h : ChildReplaced f owner old new g)
    (hi : (f.places owner).idxOf? (some old) = some i)
    (hothers : ∀ j c, j ≠ i → f.childAt owner j = some c → g.snapshot? c = f.snapshot? c)
    (hbrought : ∀ c, some c ∈ f.brought owner new → g.snapshot? c = f.snapshot? c)
    (hs : f.snapshot? owner = some s) (ht : f.snapshot? new = some t) :
    g.snapshot? owner = some (s.substitute i (f.replacementBy owner new) t) := by
  obtain ⟨node, shown, hnode, hshown, rfl⟩ := snapshot?_eq_some.1 hs
  have hplaces : g.places owner = exchange (f.places owner) i (f.brought owner new) := by
    rw [h.places, if_pos rfl, giveWay_eq_exchange hi]
  have hrow : ∀ {more}, (f.brought owner new).mapM (snapshotOfPlace g.snapshot?) = some more →
      g.snapshot? owner = some (node.portray (exchange shown i more)) := by
    intro more hmore
    refine snapshot?_of_portray ((h.frame owner).portray? hnode) ?_
    rw [hplaces]
    refine mapM_exchange hshown hmore fun j place hj hplace => ?_
    cases place with
    | none => rfl
    | some c => exact congrArg (Option.map some) (hothers j c hj (childAt_eq_some.2 hplace))
  rw [mapM_snapshotOfPlace_congr hbrought] at hrow
  unfold replacementBy
  by_cases hsplices : f.Splices owner new
  · obtain ⟨items, hitems⟩ := isSome_items?_of_isList hsplices.1 hnode
    have hmore := mapM_items_of_isList hsplices.2.1 ht
    have hbrought : f.brought owner new = f.items new := if_pos hsplices
    rw [if_pos hsplices, hrow (hbrought ▸ hmore), node.portray_of_some hitems]
    rfl
  · have hlt : i < shown.length := by
      rw [length_of_mapM hshown]
      exact (List.idxOf?_eq_some_iff.1 hi).1
    have hbrought : f.brought owner new = [some new] := if_neg hsplices
    have hmore : (f.brought owner new).mapM (snapshotOfPlace f.snapshot?) = some [some t] := by
      rw [hbrought, mapM_eq_some]
      simp [snapshotOfPlace, ht]
    rw [if_neg hsplices, hrow hmore, exchange_eq_modify hlt, node.portray_modify]
    rfl

end Owner

/-! ## The law -/

section Law

variable {root p new : NodeId} {path : List Nat} {i : Nat}

/-- A node on one path from `root` has its child in one place only. -/
theorem OnePathEach.idxOf?_eq_some (h : f.OnePathEach p) (hn : f.childAt p i = some n) :
    (f.places p).idxOf? (some n) = some i := by
  obtain ⟨j, hj⟩ := exists_idxOf?_eq_some (List.mem_of_getElem? (childAt_eq_some.1 hn))
  have hn' := childAt_eq_some.2 (getElem?_of_idxOf? hj)
  have heq : j = i := Decidable.byContradiction fun hne => h.not_visits_of_ne hn' hn hne .refl .refl
  rw [hj, heq]

/-- What a replacement below `root` by a node apart from `root` shows from there. -/
theorem ChildReplaced.snapshot?_root (h : ChildReplaced f p n new g) (honce : f.OnePathEach root)
    (hp : f.follow root path = some p) (hn : f.childAt p i = some n) (hunwinds : f.Unwinds new)
    (hapart : ∀ m, f.Visits root m → ¬ f.Visits new m) {t : Snapshot}
    (hs : f.snapshot? root = some s) (ht : f.snapshot? new = some t) :
    g.snapshot? root
      = some (s.modifyAt (fun s => s.substitute i (f.replacementBy p new) t) path) := by
  have hvisits : f.Visits root p := visits_iff_exists_follow.2 ⟨path, hp⟩
  have hne : ∀ {m}, f.Visits root m → m ≠ new := fun hm heq => hapart _ hm (heq ▸ .refl)
  have hbelow := honce.of_visits hvisits
  refine snapshot?_modifyAt h.size honce hp ?_ ?_ hs
  · exact fun m hm hmp => h.sameContents hmp fun hnew => hne hm hnew.1
  intro s hs
  refine h.snapshot?_owner (hbelow.idxOf?_eq_some hn) ?_ ?_ hs ht
  · -- What is below the other places of the owner does not come back to it.
    intro j c _ hc
    refine snapshot?_congr h.size fun m hm => h.sameContents ?_ fun hnew => ?_
    · rintro rfl
      exact hbelow.not_visits_root hc hm
    · have hm : f.Visits root m := hvisits.trans (.head (stepsTo_iff_exists_childAt.2 ⟨j, hc⟩) hm)
      exact hne hm hnew.1
  · -- What comes in does not lead to the owner, nor the items of a list back to that list.
    intro c hc
    refine snapshot?_congr h.size fun m hm => h.sameContents ?_ ?_
    · rintro rfl
      refine hapart m hvisits ?_
      rcases mem_brought.1 hc with ⟨hsplices, hitem⟩ | ⟨-, rfl⟩
      · exact .head (mem_children.2 (places_of_isList hsplices.2.1 ▸ hitem)) hm
      · exact hm
    · rintro ⟨rfl, hsplices⟩
      have hitem : some c ∈ f.places m := by
        rw [places_of_isList hsplices.2.1]
        exact ((mem_brought.1 hc).resolve_right fun hnot => hnot.1 hsplices).2
      exact hunwinds m .refl (.head' (mem_children.2 hitem) hm)

/-- **A replacement is a substitution in the snapshot.** -/
theorem Reachable.snapshot?_replaceChild (hf : Reachable f) (hroot : f.isLive root)
    (honce : f.OnePathEach root) (hp : f.follow root path = some p)
    (hn : f.childAt p i = some n) (hnew : f.isLive new) (hunwinds : f.Unwinds new)
    (hapart : ∀ m, f.Visits root m → ¬ f.Visits new m) :
    (f.run (.replaceChild p n new)).result = .ok (.replaced (f.replacementBy p new))
      ∧ ∃ s t, f.snapshot? root = some s ∧ f.snapshot? new = some t
        ∧ (∀ inserted, f.replacementBy p new = .spliced inserted → t.items.length = inserted)
        ∧ (f.perform (.replaceChild p n new)).forest.snapshot? root
          = some (s.modifyAt (fun s => s.substitute i (f.replacementBy p new) t) path)
        ∧ ((f.run (.replaceChild p n new)).forest.isLive root →
          (f.run (.replaceChild p n new)).forest.snapshot? root
            = some (s.modifyAt (fun s => s.substitute i (f.replacementBy p new) t) path)) := by
  have hvisits : f.Visits root p := visits_iff_exists_follow.2 ⟨path, hp⟩
  have hold : some n ∈ f.places p := List.mem_of_getElem? (childAt_eq_some.1 hn)
  have hne : new ≠ p := fun heq => hapart p hvisits (heq ▸ .refl)
  obtain ⟨hresult, h⟩ := perform_replaceChild_of_mem hold hne
    (hf.heldAlive p n (holds_of_mem_places hold)) hnew
  obtain ⟨s, hs⟩ := Option.isSome_iff_exists.1
    ((isSome_snapshot?_iff hf.heldAlive).2 ⟨hroot, honce.unwinds⟩)
  obtain ⟨t, ht⟩ := Option.isSome_iff_exists.1
    ((isSome_snapshot?_iff hf.heldAlive).2 ⟨hnew, hunwinds⟩)
  have hafter := h.snapshot?_root honce hp hn hunwinds hapart hs ht
  refine ⟨hresult, s, t, hs, ht, ?_, hafter, ?_⟩
  · intro inserted hinserted
    unfold replacementBy at hinserted
    split at hinserted
    · next hsplices =>
      cases hinserted
      exact length_of_mapM (mapM_items_of_isList hsplices.2.1 ht)
    · cases hinserted
  · intro hlive
    exact (snapshot?_reclaim (hf.run _).heldAlive hlive).trans hafter

/-- A tree with a list in the slot of a node in a list, and a list apart from it. -/
def nestedTree : List Edit :=
  let block := Catalogue.spec Catalogue.block "" true true
  let identifier := Catalogue.spec Catalogue.identifier "x" false true
  [.create block, .create (Catalogue.spec Catalogue.unary "-" false true), .create block,
    .create identifier, .create identifier, .create block, .create identifier,
    .push 0 (some 4), .push 0 (some 1), .fillSlot 1 0 (some 2), .push 2 none, .push 2 (some 3),
    .push 5 (some 6), .push 5 none]

theorem Reachable.snapshot?_replaceChild_nestedTree :
    ∃ s t, (empty.runAll nestedTree).snapshot? 0 = some s
      ∧ (empty.runAll nestedTree).snapshot? 5 = some t
      ∧ ((empty.runAll nestedTree).run (.replaceChild 2 3 5)).forest.snapshot? 0
        = some (s.modifyAt (fun s => s.substitute 1 (.spliced 2) t) [1, 0]) := by
  have hsole : (empty.runAll nestedTree).SolePlaces := by decide +kernel
  have htop : (empty.runAll nestedTree).IsTop 0 := by decide +kernel
  have htop' : (empty.runAll nestedTree).IsTop 5 := by decide +kernel
  have hp : (empty.runAll nestedTree).follow 0 [1, 0] = some 2 := by decide +kernel
  have hn : (empty.runAll nestedTree).childAt 2 1 = some 3 := by decide +kernel
  have hnew : (empty.runAll nestedTree).isLive 5 := by decide +kernel
  have hapart : ∀ m, (empty.runAll nestedTree).Visits 0 m →
      ¬ (empty.runAll nestedTree).Visits 5 m :=
    fun m hm hm' => absurd (hsole.eq_of_visits htop htop' hm hm') (by decide)
  have hspliced : (empty.runAll nestedTree).replacementBy 2 5 = .spliced 2 := by decide +kernel
  obtain ⟨-, s, t, hs, ht, -, -, hafter⟩ :=
    Reachable.snapshot?_replaceChild (Reachable.start.runAll nestedTree) (by decide +kernel)
      (hsole.onePathEach htop) hp hn hnew (hsole.onePathEach htop').unwinds hapart
  exact ⟨s, t, hs, ht, hspliced ▸ hafter (by decide +kernel)⟩

end Law

end Forest

end NodeForest
