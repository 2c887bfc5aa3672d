import NodeForest.Proofs.SpelledSnapshots

set_option autoImplicit false

/-! # The decoder accepts what spells a snapshot

Among plain values the decoder accepts those that spell a snapshot, in whatever order the members of
objects are, and gives the snapshot that they spell. So it undoes the encoder. -/

namespace NodeForest.Snapshot

open Json

variable {α : Type} {φ : Json → Json} {v w : Json} {name : String}
  {members reordered : List (String × Json)} {s : Snapshot} {slot : Slot Snapshot}

/-! ## Fields of objects with reordered members -/

theorem field_reorder {read : Json → Except DecodeError α} {found : Option α}
    (hperm : reordered.Perm (members.map (Prod.map id φ))) :
    Field name read reordered found ↔ Field name (fun v => read (φ v)) members found := by
  cases found <;> simp [Field, hperm.mem_iff, Prod.map]

theorem field_string_iff (hφ : Reorders φ) {value : String} :
    Field name (fun v => decodeString (φ v)) members (some value)
      ↔ (name, .string value) ∈ members := by
  simp [Field, decodeString_eq_ok, hφ.eq_string_iff]

theorem field_shape_iff (hφ : Reorders φ) {inner : Bool} {shape : Shape}
    (hnumber : ∀ number, ("shape", .integer number) ∉ members) :
    Field "shape" (fun v => decodeShape inner (φ v)) members (some shape)
      ↔ ("shape", .string shape.text) ∈ members := by
  have heq : ∀ v, ("shape", v) ∈ members →
      (decodeShape inner (φ v) = .ok shape ↔ v = .string shape.text) := by
    intro v hv
    rw [decodeShape_eq_ok, hφ.eq_string_iff]
    intro number hinteger
    exact hnumber number (hφ.eq_integer_iff.1 hinteger ▸ hv)
  constructor
  · rintro ⟨v, hv, hshape⟩
    exact (heq v hv).1 hshape ▸ hv
  · exact fun h => ⟨_, h, (heq _ h).2 rfl⟩

/-- A row is read value by value. -/
theorem field_rows_iff (hφ : Reorders φ) {read : Json → Except DecodeError (List α)}
    {readRow : Json → Except DecodeError α} {R : α → Json → Prop} {xs : List α}
    (hread : ∀ {v xs}, read v = .ok xs ↔ ∃ rows, v = .array rows ∧ rows.mapM readRow = .ok xs)
    (hrow : ∀ rows, (name, .array rows) ∈ members → ∀ row ∈ rows, ∀ x,
      readRow (φ row) = .ok x ↔ R x row) :
    Field name (fun v => read (φ v)) members (some xs)
      ↔ ∃ rows, (name, .array rows) ∈ members ∧ List.Forall₂ R xs rows := by
  simp only [Field, hread, hφ.eq_array_iff]
  constructor
  · rintro ⟨-, hv, -, ⟨rows, rfl, rfl⟩, hrows⟩
    rw [List.mapM_map] at hrows
    exact ⟨rows, hv, (mapM_eq_ok (f := readRow ∘ φ) (hrow rows hv)).1 hrows⟩
  · rintro ⟨rows, hv, hrows⟩
    refine ⟨_, hv, _, ⟨rows, rfl, rfl⟩, ?_⟩
    rw [List.mapM_map]
    exact (mapM_eq_ok (f := readRow ∘ φ) (hrow rows hv)).2 hrows

/-! ## One object -/

/-- An object is read as the snapshot that it spells if what it contains is. -/
theorem decodeAt_object_iff (hφ : Reorders φ) (hkeys : (members.map Prod.fst).Nodup)
    (hnumber : ∀ number, ("shape", .integer number) ∉ members)
    (hslots : ("shape", .string "node") ∈ members → ∀ rows, ("slots", .array rows) ∈ members →
      ∀ row ∈ rows, ∀ slot, decodeSlot (φ row) = .ok slot ↔ SpellsSlot slot row)
    (hitems : ("shape", .string "list") ∈ members → ∀ rows, ("items", .array rows) ∈ members →
      ∀ row ∈ rows, ∀ child, decodeChild (φ row) = .ok child ↔ SpellsChild child row)
    (inner : Bool) :
    decodeAt inner (φ (.object members)) = .ok s ↔ Spells s (.object members) := by
  obtain ⟨reordered, hobject, hperm, hkeys'⟩ := hφ.exists_reordered hkeys
  rw [hobject, decodeAt_object_eq_ok hkeys', decodeNodeMembers_eq_ok hkeys',
    decodeListMembers_eq_ok hkeys', spells_object_iff hkeys]
  simp only [field_reorder hperm, field_shape_iff hφ hnumber, field_string_iff hφ, Shape.text]
  refine or_congr (and_congr_right fun hshape => ?_) (and_congr_right fun hshape => ?_)
  · simp only [field_rows_iff hφ decodeSlots_eq_ok (hslots hshape)]
  · simp only [field_rows_iff hφ decodeItems_eq_ok (hitems hshape)]

theorem decodeSlot_object_iff (hφ : Reorders φ) (hkeys : (members.map Prod.fst).Nodup)
    (hchild : ∀ v, ("child", v) ∈ members → ∀ child,
      decodeChild (φ v) = .ok child ↔ SpellsChild child v) :
    decodeSlot (φ (.object members)) = .ok slot ↔ SpellsSlot slot (.object members) := by
  obtain ⟨reordered, hobject, hperm, hkeys'⟩ := hφ.exists_reordered hkeys
  rw [hobject, decodeSlot_object_eq_ok hkeys', spellsSlot_object_iff hkeys]
  simp only [field_reorder hperm, field_string_iff hφ]
  refine and_congr_right fun _ => or_congr ?_ Iff.rfl
  exact exists_congr fun v => and_congr_right fun hv => hchild v hv slot.occupant

/-! ## Every value -/

theorem spellsChild_iff {child : Option Snapshot} :
    SpellsChild child v ↔ v = .null ∧ child = none ∨ ∃ s, child = some s ∧ Spells s v := by
  constructor
  · rintro (_ | h)
    · exact Or.inl ⟨rfl, rfl⟩
    · exact Or.inr ⟨_, rfl, h⟩
  · rintro (⟨rfl, rfl⟩ | ⟨s, rfl, h⟩)
    · exact .none
    · exact .some h

theorem decodeAt_scalar_iff {inner : Bool} (hw : w.IsScalar) :
    decodeAt inner w = .ok s ↔ Spells s w := by
  cases w with
  | array _ | object _ => cases hw
  | _ =>
    refine iff_of_false (by simp [decodeAt]) fun h => ?_
    cases h

theorem decodeSlot_scalar_iff (hw : w.IsScalar) :
    decodeSlot w = .ok slot ↔ SpellsSlot slot w := by
  cases w with
  | array _ | object _ => cases hw
  | _ =>
    refine iff_of_false (by simp [decodeSlot]) fun h => ?_
    cases h

theorem sizeOf_member_lt (h : (name, w) ∈ members) : sizeOf w < sizeOf (Json.object members) := by
  have := List.sizeOf_lt_of_mem h
  simp only [Prod.mk.sizeOf_spec, object.sizeOf_spec] at *
  omega

theorem sizeOf_row_lt {rows : List Json} (hrows : (name, .array rows) ∈ members) (h : w ∈ rows) :
    sizeOf w < sizeOf (Json.object members) := by
  have hrow := List.sizeOf_lt_of_mem h
  have hmember := sizeOf_member_lt hrows
  simp only [array.sizeOf_spec] at hmember
  omega

/-- Whatever stands in a plain value is read as what it spells. -/
theorem Plain.decode_iff (hv : Plain v) (hφ : Reorders φ) (w : Json) :
    (Stands v .snapshot w → ∀ inner s, decodeAt inner (φ w) = .ok s ↔ Spells s w)
      ∧ (Stands v .slot w → ∀ slot, decodeSlot (φ w) = .ok slot ↔ SpellsSlot slot w) := by
  induction hsize : sizeOf w using Nat.strongRecOn generalizing w with
  | _ size ih =>
    have hinner : ∀ u, sizeOf u < sizeOf w → Stands v .snapshot u → ∀ child,
        decodeChild (φ u) = .ok child ↔ SpellsChild child u := by
      intro u hlt hu child
      rw [decodeChild_eq_ok, spellsChild_iff, hφ.eq_null_iff]
      simp only [(ih _ (hsize ▸ hlt) u rfl).1 hu]
    cases w with
    | object members =>
      constructor
      · intro hw inner s
        have hnumber : ∀ number, ("shape", .integer number) ∉ members := fun number h =>
          hv.shape (.shape hw h)
        refine decodeAt_object_iff hφ (hv.keys hw) hnumber ?_ ?_ inner
        · intro hshape rows hrows row hrow
          exact (ih _ (hsize ▸ sizeOf_row_lt hrows hrow) row rfl).2 (.slot hw hshape hrows hrow)
        · intro hshape rows hrows row hrow
          exact hinner row (sizeOf_row_lt hrows hrow) (.item hw hshape hrows hrow)
      · intro hw slot
        refine decodeSlot_object_iff hφ (hv.keys hw) fun u hu => ?_
        exact hinner u (sizeOf_member_lt hu) (.child hw hu)
    | array elements => exact ⟨fun h => absurd h hv.snapshot, fun h => absurd h hv.slot⟩
    | _ =>
      rw [hφ.scalar]
      · exact ⟨fun _ _ _ => decodeAt_scalar_iff trivial, fun _ _ => decodeSlot_scalar_iff trivial⟩
      · trivial

theorem Plain.decode_reordered_iff (hv : Plain v) (hφ : Reorders φ) :
    decode (φ v) = .ok s ↔ Spells s v :=
  (hv.decode_iff hφ v).1 .top false s

/-! ## The encoder -/

/-- The JSON value of a slot. -/
def slotToJson (slot : Slot Snapshot) : Json :=
  .object [("name", .string slot.name), ("child", childToJson slot.occupant)]

theorem slotsToJson_eq (slots : List (Slot Snapshot)) :
    slotsToJson slots = slots.map slotToJson := by
  induction slots with
  | nil => rw [slotsToJson, List.map_nil]
  | cons slot rest ih => rw [slotsToJson, ih, List.map_cons, slotToJson]

theorem itemsToJson_eq (items : List (Option Snapshot)) :
    itemsToJson items = items.map childToJson := by
  induction items with
  | nil => rw [itemsToJson, List.map_nil]
  | cons child rest ih => rw [itemsToJson, ih, List.map_cons]

theorem gives_self (declared : List String) (fields : List (String × Json)) :
    Gives declared fields fields :=
  ⟨[], by rw [List.append_nil], nofun⟩

mutual

/-- What the encoder writes spells the snapshot. -/
theorem spells_toJson : (s : Snapshot) → Spells s s.toJson
  | .node _ slots => by
    rw [toJson]
    exact .node (gives_self ..) (spells_slotsToJson slots)
  | .list _ items => by
    rw [toJson]
    exact .list (gives_self ..) (spells_itemsToJson items)

theorem spells_slotsToJson :
    (slots : List (Slot Snapshot)) → List.Forall₂ SpellsSlot slots (slotsToJson slots)
  | [] => by
    rw [slotsToJson]
    exact .nil
  | ⟨_, child⟩ :: rest => by
    rw [slotsToJson]
    exact .cons (.full (gives_self ..) (spells_childToJson child)) (spells_slotsToJson rest)

theorem spells_itemsToJson :
    (items : List (Option Snapshot)) → List.Forall₂ SpellsChild items (itemsToJson items)
  | [] => by
    rw [itemsToJson]
    exact .nil
  | child :: rest => by
    rw [itemsToJson]
    exact .cons (spells_childToJson child) (spells_itemsToJson rest)

theorem spells_childToJson : (child : Option Snapshot) → SpellsChild child (childToJson child)
  | none => by
    rw [childToJson]
    exact .none
  | some s => by
    rw [childToJson]
    exact .some (spells_toJson s)

end

/-- What stands in the value of a snapshot was written as what is expected there. -/
def WrittenAs (w : Json) : Expectation → Prop
  | .snapshot => ∃ child, w = childToJson child
  | .slot => ∃ slot, w = slotToJson slot
  | .shape => ∃ shape : Shape, w = .string shape.text
  | .string | .sequence => False

theorem childToJson_eq_object {child : Option Snapshot} (h : childToJson child = .object members) :
    (∃ kind slots, members = [("shape", .string "node"), ("kind", .string kind),
        ("slots", .array (slotsToJson slots))])
      ∨ ∃ kind items, members = [("shape", .string "list"), ("kind", .string kind),
        ("items", .array (itemsToJson items))] := by
  match child with
  | none => simp [childToJson] at h
  | some (.node kind slots) =>
    simp only [childToJson, toJson, object.injEq] at h
    exact Or.inl ⟨kind, slots, h.symm⟩
  | some (.list kind items) =>
    simp only [childToJson, toJson, object.injEq] at h
    exact Or.inr ⟨kind, items, h.symm⟩

theorem writtenAs_of_stands {e : Expectation} (h : Stands s.toJson e w) : WrittenAs w e := by
  induction h with
  | top => exact ⟨some s, by rw [childToJson]⟩
  | shape _ hw ih =>
    obtain ⟨child, hchild⟩ := ih
    rcases childToJson_eq_object hchild.symm with ⟨kind, slots, rfl⟩ | ⟨kind, items, rfl⟩
    · exact ⟨.node, by simpa [Shape.text] using hw⟩
    · exact ⟨.list, by simpa [Shape.text] using hw⟩
  | slot _ hshape hrows hw ih =>
    obtain ⟨child, hchild⟩ := ih
    rcases childToJson_eq_object hchild.symm with ⟨kind, slots, rfl⟩ | ⟨kind, items, rfl⟩
    · obtain rfl : _ = slotsToJson slots := by simpa using hrows
      rw [slotsToJson_eq] at hw
      obtain ⟨slot, -, hslot⟩ := List.mem_map.1 hw
      exact ⟨slot, hslot.symm⟩
    · simp at hshape
  | item _ hshape hrows hw ih =>
    obtain ⟨child, hchild⟩ := ih
    rcases childToJson_eq_object hchild.symm with ⟨kind, slots, rfl⟩ | ⟨kind, items, rfl⟩
    · simp at hshape
    · obtain rfl : _ = itemsToJson items := by simpa using hrows
      rw [itemsToJson_eq] at hw
      obtain ⟨item, -, hitem⟩ := List.mem_map.1 hw
      exact ⟨item, hitem.symm⟩
  | child _ hw ih =>
    obtain ⟨slot, hslot⟩ := ih
    simp only [slotToJson, object.injEq] at hslot
    subst hslot
    exact ⟨slot.occupant, by simpa using hw⟩

theorem childToJson_ne_array (child : Option Snapshot) (elements : List Json) :
    childToJson child ≠ .array elements := by
  match child with
  | none => simp [childToJson]
  | some (.node _ _) => simp [childToJson, toJson]
  | some (.list _ _) => simp [childToJson, toJson]

theorem plain_toJson (s : Snapshot) : Plain s.toJson where
  keys {e members} h := by
    have hwritten := writtenAs_of_stands h
    cases e with
    | snapshot =>
      obtain ⟨child, hchild⟩ := hwritten
      rcases childToJson_eq_object hchild.symm with ⟨kind, slots, rfl⟩ | ⟨kind, items, rfl⟩
      · simp
      · simp
    | slot =>
      obtain ⟨slot, hslot⟩ := hwritten
      simp only [slotToJson, object.injEq] at hslot
      simp [hslot]
    | shape =>
      obtain ⟨shape, hshape⟩ := hwritten
      cases hshape
    | _ => cases hwritten
  snapshot h := by
    obtain ⟨child, hchild⟩ := writtenAs_of_stands h
    exact childToJson_ne_array child _ hchild.symm
  slot h := by
    obtain ⟨slot, hslot⟩ := writtenAs_of_stands h
    cases hslot
  shape h := by
    obtain ⟨shape, hshape⟩ := writtenAs_of_stands h
    cases hshape

/-! ## The law -/

/-- **The decoder accepts what spells a snapshot, and nothing else that is plain.** This holds of a
    value with its members as they stand and of the value with its members sorted, and it holds of
    what the encoder writes. -/
theorem Plain.decode_eq_ok_iff (hv : Plain v) :
    (∀ s, decode v = .ok s ↔ Spells s v)
      ∧ (∀ s, decode v.canonical = .ok s ↔ Spells s v)
      ∧ ((∀ s, ¬ Spells s v) → (∃ e, decode v = .error e) ∧ ∃ e, decode v.canonical = .error e)
      ∧ ∀ s, decode s.toJson = .ok s ∧ decode s.toJson.canonical = .ok s := by
  have herror : ∀ {w : Json}, (∀ s, decode w ≠ .ok s) → ∃ e, decode w = .error e := by
    intro w hw
    cases h : decode w with
    | error e => exact ⟨e, rfl⟩
    | ok s => exact absurd h (hw s)
  refine ⟨fun s => hv.decode_reordered_iff reorders_id,
    fun s => hv.decode_reordered_iff reorders_canonical, fun hnone => ⟨?_, ?_⟩, fun s => ⟨?_, ?_⟩⟩
  · exact herror fun s h => hnone s ((hv.decode_reordered_iff reorders_id).1 h)
  · exact herror fun s h => hnone s ((hv.decode_reordered_iff reorders_canonical).1 h)
  · exact ((plain_toJson s).decode_reordered_iff reorders_id).2 (spells_toJson s)
  · exact ((plain_toJson s).decode_reordered_iff reorders_canonical).2 (spells_toJson s)

/-- A node with an empty slot: the members in another order, one of them of no concern to the
    decoder, and the slot without its `child`. -/
def annotatedNode : Json :=
  .object [("kind", .string "Return"), ("line", .integer 7),
    ("slots", .array [.object [("name", .string "value")]]), ("shape", .string "node")]

/-- A list with that node and a placeholder, and with slots, which a list does not have. -/
def annotatedBlock : Json :=
  .object [("items", .array [annotatedNode, .null]), ("slots", .null), ("shape", .string "list"),
    ("kind", .string "Block")]

theorem stands_annotatedBlock {e : Expectation} (h : Stands annotatedBlock e w) :
    e = .snapshot ∧ (w = annotatedBlock ∨ w = annotatedNode ∨ w = .null)
      ∨ e = .slot ∧ w = .object [("name", .string "value")]
      ∨ e = .shape ∧ (w = .string "node" ∨ w = .string "list") := by
  induction h with
  | top => exact Or.inl ⟨rfl, Or.inl rfl⟩
  | shape _ hw ih =>
    rcases ih with ⟨-, h | h | h⟩ | ⟨h, -⟩ | ⟨h, -⟩ <;> simp_all [annotatedBlock, annotatedNode]
  | slot _ _ _ hw ih =>
    rcases ih with ⟨-, h | h | h⟩ | ⟨h, -⟩ | ⟨h, -⟩ <;> simp_all [annotatedBlock, annotatedNode]
  | item _ _ _ hw ih =>
    rcases ih with ⟨-, h | h | h⟩ | ⟨h, -⟩ | ⟨h, -⟩ <;> simp_all [annotatedBlock, annotatedNode]
  | child _ hw ih => simp_all

theorem plain_annotatedBlock : Plain annotatedBlock where
  keys h := by
    rcases stands_annotatedBlock h with ⟨-, h | h | h⟩ | ⟨-, h⟩ | ⟨-, h | h⟩ <;>
      simp_all [annotatedBlock, annotatedNode]
  snapshot h := by simpa [annotatedBlock, annotatedNode] using stands_annotatedBlock h
  slot h := by simpa using stands_annotatedBlock h
  shape h := by simpa using stands_annotatedBlock h

theorem Plain.decode_eq_ok_iff_annotatedBlock :
    decode annotatedBlock = .ok (.list "Block" [some (.node "Return" [⟨"value", none⟩]), none])
      ∧ decode annotatedBlock.canonical
        = .ok (.list "Block" [some (.node "Return" [⟨"value", none⟩]), none]) := by
  have hnode : Spells (.node "Return" [⟨"value", none⟩]) annotatedNode := by
    refine (spells_object_iff (by decide)).2 (Or.inl ⟨by simp, _, _, by simp,
      ⟨[.object [("name", .string "value")]], by simp, ?_⟩, rfl⟩)
    exact .cons (.withoutChild (gives_self ..)) .nil
  have hblock : Spells (.list "Block" [some (.node "Return" [⟨"value", none⟩]), none])
      annotatedBlock := by
    refine (spells_object_iff (by decide)).2 (Or.inr ⟨by simp, _, _, by simp,
      ⟨[annotatedNode, .null], by simp, ?_⟩, rfl⟩)
    exact .cons (.some hnode) (.cons .none .nil)
  obtain ⟨hdecode, hcanonical, -, -⟩ := Plain.decode_eq_ok_iff plain_annotatedBlock
  exact ⟨(hdecode _).2 hblock, (hcanonical _).2 hblock⟩

end NodeForest.Snapshot
