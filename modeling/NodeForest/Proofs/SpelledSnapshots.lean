import Mathlib.Data.List.Forall2
import Mathlib.Data.List.Nodup
import NodeForest.Proofs.DecodedMembers
import NodeForest.Proofs.MemberOrder
import NodeForest.Snapshot.Encode

set_option autoImplicit false

/-! # The values that spell a snapshot

A value spells a snapshot if it is the one that the encoder writes, but for the order of members,
for members with names that nobody asks for and for `child` members of empty slots, which may be
left out. A plain value does not make use of what the decoder accepts besides, namely fields by
position and shapes by number. -/

namespace NodeForest.Snapshot

/-! ## Spelling -/

/-- The members are `fields`, in any order, besides others with names that are not `declared`. -/
def Gives (declared : List String) (fields members : List (String × Json)) : Prop :=
  ∃ extra, members.Perm (fields ++ extra) ∧ ∀ member ∈ extra, member.1 ∉ declared

mutual

/-- The value spells the snapshot. -/
inductive Spells : Snapshot → Json → Prop
  | node {kind : String} {slots : List (Slot Snapshot)} {rows : List Json}
      {members : List (String × Json)} :
      Gives ["shape", "kind", "slots"]
        [("shape", .string "node"), ("kind", .string kind), ("slots", .array rows)] members →
      List.Forall₂ SpellsSlot slots rows → Spells (.node kind slots) (.object members)
  | list {kind : String} {items : List (Option Snapshot)} {rows : List Json}
      {members : List (String × Json)} :
      Gives ["shape", "kind", "items"]
        [("shape", .string "list"), ("kind", .string kind), ("items", .array rows)] members →
      List.Forall₂ SpellsChild items rows → Spells (.list kind items) (.object members)

/-- The value spells the slot. -/
inductive SpellsSlot : Slot Snapshot → Json → Prop
  | full {name : String} {child : Option Snapshot} {v : Json} {members : List (String × Json)} :
      Gives ["name", "child"] [("name", .string name), ("child", v)] members →
      SpellsChild child v → SpellsSlot ⟨name, child⟩ (.object members)
  | withoutChild {name : String} {members : List (String × Json)} :
      Gives ["name", "child"] [("name", .string name)] members →
      SpellsSlot ⟨name, none⟩ (.object members)

/-- The value spells what stands in a slot or at a position. -/
inductive SpellsChild : Option Snapshot → Json → Prop
  | none : SpellsChild none .null
  | some {s : Snapshot} {v : Json} : Spells s v → SpellsChild (some s) v

end

/-- Within `v`, `w` stands where something is expected of it. -/
inductive Stands (v : Json) : Expectation → Json → Prop
  | top : Stands v .snapshot v
  | shape {members : List (String × Json)} {w : Json} : Stands v .snapshot (.object members) →
      ("shape", w) ∈ members → Stands v .shape w
  | slot {members : List (String × Json)} {rows : List Json} {w : Json} :
      Stands v .snapshot (.object members) → ("shape", .string "node") ∈ members →
      ("slots", .array rows) ∈ members → w ∈ rows → Stands v .slot w
  | item {members : List (String × Json)} {rows : List Json} {w : Json} :
      Stands v .snapshot (.object members) → ("shape", .string "list") ∈ members →
      ("items", .array rows) ∈ members → w ∈ rows → Stands v .snapshot w
  | child {members : List (String × Json)} {w : Json} : Stands v .slot (.object members) →
      ("child", w) ∈ members → Stands v .snapshot w

/-- The value has distinct keys and gives neither snapshots nor slots by position nor shapes by
    number. -/
structure Plain (v : Json) : Prop where
  keys {e : Expectation} {members : List (String × Json)} : Stands v e (.object members) →
    (members.map Prod.fst).Nodup
  snapshot {elements : List Json} : ¬ Stands v .snapshot (.array elements)
  slot {elements : List Json} : ¬ Stands v .slot (.array elements)
  shape {number : Int} : ¬ Stands v .shape (.integer number)

section Members

variable {declared : List String} {fields members : List (String × Json)} {s : Snapshot}

/-- Where no key occurs twice, members are told by their names. -/
theorem gives_iff (hkeys : (members.map Prod.fst).Nodup) (hfields : (fields.map Prod.fst).Nodup)
    (hdeclared : ∀ field ∈ fields, field.1 ∈ declared) :
    Gives declared fields members
      ↔ (∀ field ∈ fields, field ∈ members)
        ∧ ∀ member ∈ members, member.1 ∈ declared → member ∈ fields := by
  constructor
  · rintro ⟨extra, hperm, hextra⟩
    refine ⟨fun field hfield => hperm.mem_iff.2 (List.mem_append_left _ hfield), ?_⟩
    intro member hmember hname
    rcases List.mem_append.1 (hperm.mem_iff.1 hmember) with h | h
    · exact h
    · exact absurd hname (hextra member h)
  · rintro ⟨hall, hnames⟩
    -- The fields are the members with declared names.
    refine ⟨members.filter fun member => !decide (member.1 ∈ declared), ?_, ?_⟩
    · refine (List.filter_append_perm (fun member => decide (member.1 ∈ declared))
        members).symm.trans (List.Perm.append_right _ ?_)
      refine (List.perm_ext_iff_of_nodup ((List.Nodup.of_map Prod.fst hkeys).filter _)
        (List.Nodup.of_map Prod.fst hfields)).2 fun member => ?_
      rw [List.mem_filter, decide_eq_true_iff]
      exact ⟨fun h => hnames member h.1 h.2, fun h => ⟨hall member h, hdeclared member h⟩⟩
    · intro member hmember
      simpa using (List.mem_filter.1 hmember).2

theorem gives_iff_subset (hkeys : (members.map Prod.fst).Nodup) (hfields : declared.Nodup)
    (hdeclared : fields.map Prod.fst = declared) :
    Gives declared fields members ↔ ∀ field ∈ fields, field ∈ members := by
  subst hdeclared
  rw [gives_iff hkeys hfields fun field h => List.mem_map_of_mem h]
  refine and_iff_left_of_imp fun hall member hmember hname => ?_
  obtain ⟨field, hfield, hsame⟩ := List.mem_map.1 hname
  exact List.inj_on_of_nodup_map hkeys (hall field hfield) hmember hsame ▸ hfield

theorem spells_object_iff (hkeys : (members.map Prod.fst).Nodup) :
    Spells s (.object members)
      ↔ ("shape", .string "node") ∈ members
          ∧ (∃ kind slots, ("kind", .string kind) ∈ members
            ∧ (∃ rows, ("slots", .array rows) ∈ members ∧ List.Forall₂ SpellsSlot slots rows)
            ∧ s = node kind slots)
        ∨ ("shape", .string "list") ∈ members
          ∧ ∃ kind items, ("kind", .string kind) ∈ members
            ∧ (∃ rows, ("items", .array rows) ∈ members ∧ List.Forall₂ SpellsChild items rows)
            ∧ s = list kind items := by
  constructor
  · rintro (⟨hgives, hslots⟩ | ⟨hgives, hitems⟩)
    · have h := (gives_iff_subset hkeys (by simp) rfl).1 hgives
      simp only [List.forall_mem_cons] at h
      exact Or.inl ⟨h.1, _, _, h.2.1, ⟨_, h.2.2.1, hslots⟩, rfl⟩
    · have h := (gives_iff_subset hkeys (by simp) rfl).1 hgives
      simp only [List.forall_mem_cons] at h
      exact Or.inr ⟨h.1, _, _, h.2.1, ⟨_, h.2.2.1, hitems⟩, rfl⟩
  · rintro (⟨hshape, kind, slots, hkind, ⟨rows, hrows, hslots⟩, rfl⟩
      | ⟨hshape, kind, items, hkind, ⟨rows, hrows, hitems⟩, rfl⟩)
    · exact .node ((gives_iff_subset hkeys (by simp) rfl).2 (by simp [*])) hslots
    · exact .list ((gives_iff_subset hkeys (by simp) rfl).2 (by simp [*])) hitems

theorem spellsSlot_object_iff {slot : Slot Snapshot} (hkeys : (members.map Prod.fst).Nodup) :
    SpellsSlot slot (.object members)
      ↔ ("name", .string slot.name) ∈ members
        ∧ ((∃ v, ("child", v) ∈ members ∧ SpellsChild slot.occupant v)
          ∨ (∀ v, ("child", v) ∉ members) ∧ slot.occupant = none) := by
  constructor
  · rintro (⟨hgives, hchild⟩ | hgives)
    · have h := (gives_iff_subset hkeys (by simp) rfl).1 hgives
      simp only [List.forall_mem_cons] at h
      exact ⟨h.1, Or.inl ⟨_, h.2.1, hchild⟩⟩
    · obtain ⟨hall, hnames⟩ := (gives_iff hkeys (by simp) (by simp)).1 hgives
      refine ⟨hall _ (by simp), Or.inr ⟨fun v hv => ?_, rfl⟩⟩
      simpa using hnames _ hv (by simp)
  · obtain ⟨name, child⟩ := slot
    rintro ⟨hname, ⟨v, hv, hchild⟩ | ⟨hnone, rfl⟩⟩
    · exact .full ((gives_iff_subset hkeys (by simp) rfl).2 (by simp [*])) hchild
    · refine .withoutChild ((gives_iff hkeys (by simp) (by simp)).2 ⟨by simpa using hname, ?_⟩)
      intro member hmember hdeclared
      obtain ⟨key, v⟩ := member
      rcases List.mem_pair.1 hdeclared with rfl | rfl
      · exact List.mem_singleton.2 (List.inj_on_of_nodup_map hkeys hmember hname rfl)
      · exact absurd hmember (hnone v)

end Members

end NodeForest.Snapshot
