import Mathlib.Data.List.Perm.Basic
import NodeForest.Json

set_option autoImplicit false

/-! # The order of members

The canonical form of a value is the value with the members of its objects in another order,
wherever no key occurs twice. -/

namespace NodeForest.Json

/-- A value without elements and members. -/
def IsScalar : Json → Prop
  | array _ | object _ => False
  | _ => True

/-- `φ` puts the members of objects in another order and changes nothing else, as far as objects are
    concerned in which no key occurs twice. -/
structure Reorders (φ : Json → Json) : Prop where
  scalar {v : Json} : v.IsScalar → φ v = v
  array (elements : List Json) : φ (.array elements) = .array (elements.map φ)
  object (members : List (String × Json)) : ∃ reordered, φ (.object members) = .object reordered
    ∧ ((members.map Prod.fst).Nodup → reordered.Perm (members.map (Prod.map id φ)))

theorem reorders_id : Reorders id where
  scalar _ := rfl
  array elements := by simp
  object members := ⟨members, rfl, fun _ => by simp⟩

/-! ## Canonical form -/

theorem insertMember_perm {key : String} {value : Json} {members : List (String × Json)}
    (hkey : key ∉ members.map Prod.fst) :
    (insertMember key value members).Perm ((key, value) :: members) := by
  induction members with
  | nil => exact .refl _
  | cons member rest ih =>
    obtain ⟨hne, hrest⟩ := not_or.1 (mt List.mem_cons.2 hkey)
    rw [insertMember, if_neg hne]
    split
    · exact .refl _
    · exact ((ih hrest).cons member).trans (.swap ..)

theorem canonicalMembers_perm {members done : List (String × Json)}
    (hkeys : ((members ++ done).map Prod.fst).Nodup) :
    (canonicalMembers members done).Perm (members.map (Prod.map id canonical) ++ done) := by
  induction members generalizing done with
  | nil =>
    rw [canonicalMembers]
    exact .refl _
  | cons member rest ih =>
    obtain ⟨key, value⟩ := member
    obtain ⟨hfresh, hrest⟩ := List.nodup_cons.1 hkeys
    have hdone : key ∉ done.map Prod.fst := fun h =>
      hfresh (List.map_append ▸ List.mem_append_right (rest.map Prod.fst) h)
    have hinsert : (insertMember key value.canonical done).Perm ((key, value.canonical) :: done) :=
      insertMember_perm hdone
    -- What is still to come and what is done have the same keys together as before.
    have hkeys' : ((rest ++ insertMember key value.canonical done).map Prod.fst).Nodup := by
      refine (((hinsert.append_left rest).trans List.perm_middle).map Prod.fst).nodup_iff.2 ?_
      exact hkeys
    rw [canonicalMembers]
    exact (ih hkeys').trans ((hinsert.append_left _).trans List.perm_middle)

theorem canonicalElements_eq (elements : List Json) :
    canonicalElements elements = elements.map canonical := by
  induction elements with
  | nil => rw [canonicalElements, List.map_nil]
  | cons v rest ih => rw [canonicalElements, List.map_cons, ih]

theorem reorders_canonical : Reorders canonical where
  scalar {v} hv := by
    cases v with
    | array _ | object _ => cases hv
    | _ => rw [canonical] <;> nofun
  array elements := by rw [canonical, canonicalElements_eq]
  object members := by
    refine ⟨canonicalMembers members [], by rw [canonical], fun hkeys => ?_⟩
    have h : (canonicalMembers members []).Perm (members.map (Prod.map id canonical) ++ []) :=
      canonicalMembers_perm (by rwa [List.append_nil])
    rwa [List.append_nil] at h

/-! ## Reading a value in another order -/

section Reordered

variable {φ : Json → Json} {v w : Json}

theorem Reorders.eq_scalar_iff (hφ : Reorders φ) (hw : w.IsScalar) : φ v = w ↔ v = w := by
  cases v with
  | array elements =>
    rw [hφ.array]
    constructor <;> (rintro rfl; cases hw)
  | object members =>
    obtain ⟨reordered, h, -⟩ := hφ.object members
    rw [h]
    constructor <;> (rintro rfl; cases hw)
  | _ =>
    rw [hφ.scalar]
    trivial

theorem Reorders.eq_null_iff (hφ : Reorders φ) : φ v = .null ↔ v = .null :=
  hφ.eq_scalar_iff trivial

theorem Reorders.eq_integer_iff (hφ : Reorders φ) {number : Int} :
    φ v = .integer number ↔ v = .integer number :=
  hφ.eq_scalar_iff trivial

theorem Reorders.eq_string_iff (hφ : Reorders φ) {text : String} :
    φ v = .string text ↔ v = .string text :=
  hφ.eq_scalar_iff trivial

theorem Reorders.eq_array_iff (hφ : Reorders φ) {elements : List Json} :
    φ v = .array elements ↔ ∃ before, v = .array before ∧ before.map φ = elements := by
  cases v with
  | array before => simp [hφ.array]
  | object members =>
    obtain ⟨reordered, h, -⟩ := hφ.object members
    simp [h]
  | _ =>
    rw [hφ.scalar]
    · simp
    · trivial

theorem Reorders.exists_reordered (hφ : Reorders φ) {members : List (String × Json)}
    (hkeys : (members.map Prod.fst).Nodup) :
    ∃ reordered, φ (.object members) = .object reordered
      ∧ reordered.Perm (members.map (Prod.map id φ)) ∧ (reordered.map Prod.fst).Nodup := by
  obtain ⟨reordered, hobject, hperm⟩ := hφ.object members
  refine ⟨reordered, hobject, hperm hkeys, ?_⟩
  rw [((hperm hkeys).map Prod.fst).nodup_iff, List.map_map]
  exact hkeys

end Reordered

end NodeForest.Json
