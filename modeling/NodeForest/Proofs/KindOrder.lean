import Mathlib.Data.List.Infix
import Mathlib.Logic.Relation
import NodeForest.Proofs.SlotReading

set_option autoImplicit false

/-! # The order of kinds

A kind and all that it extends form a line, its lineage, which ends at a root. One kind derives from
another exactly if the lineage of the other ends its own (`derivesFrom_iff_isSuffix`). So the order
of kinds is that of the ends of lists, and the slots, which are read along the lineage, grow with
it. Kinds are equal only if they are one declaration; their names have no part in the order. -/

namespace NodeForest.Kind

/-- The kind itself and all that it extends, the root last. -/
def lineage : Kind → List Kind
  | root d => [root d]
  | extend d b => extend d b :: b.lineage

variable {a b c k : Kind}

theorem mem_lineage_self (k : Kind) : k ∈ k.lineage := by
  cases k <;> simp [lineage]

theorem lineage_injective (h : a.lineage = b.lineage) : a = b := by
  cases a <;> cases b <;> simp_all [lineage]

theorem slots_eq_flatMap_lineage (k : Kind) : k.slots = k.lineage.flatMap ownSlots := by
  induction k with
  | root d => simp [slots, lineage, ownSlots, decl]
  | extend d b ih => simp [slots, lineage, ownSlots, decl, ih]

/-! ## Deriving -/

theorem derivesFrom_iff_mem_lineage : a.derivesFrom b ↔ b ∈ a.lineage := by
  induction a with
  | root d => rw [derivesFrom, lineage, List.mem_singleton, beq_iff_eq, eq_comm]
  | extend d base ih =>
    rw [derivesFrom, lineage, List.mem_cons, Bool.or_eq_true, beq_iff_eq, ih, eq_comm]

/-- The lineage of each kind of a lineage is all that follows there. -/
theorem lineage_isSuffix_of_mem (h : b ∈ a.lineage) : b.lineage <:+ a.lineage := by
  induction a with
  | root d =>
    obtain rfl := List.mem_singleton.1 h
    exact List.suffix_rfl
  | extend d base ih =>
    rcases List.mem_cons.1 h with rfl | h
    · exact List.suffix_rfl
    · exact (ih h).trans (List.suffix_cons _ _)

theorem derivesFrom_iff_isSuffix : a.derivesFrom b ↔ b.lineage <:+ a.lineage := by
  rw [derivesFrom_iff_mem_lineage]
  constructor
  · exact lineage_isSuffix_of_mem
  · intro h
    exact h.subset (mem_lineage_self b)

theorem derivesFrom_refl (k : Kind) : k.derivesFrom k :=
  derivesFrom_iff_isSuffix.2 List.suffix_rfl

theorem derivesFrom_trans (hab : a.derivesFrom b) (hbc : b.derivesFrom c) : a.derivesFrom c := by
  rw [derivesFrom_iff_isSuffix] at *
  exact hbc.trans hab

theorem derivesFrom_antisymm (hab : a.derivesFrom b) (hba : b.derivesFrom a) : a = b := by
  rw [derivesFrom_iff_isSuffix] at *
  exact lineage_injective (hba.eq_of_length_le hab.length_le)

/-- Of two kinds that a kind derives from, one derives from the other. -/
theorem derivesFrom_or_derivesFrom (hab : a.derivesFrom b) (hac : a.derivesFrom c) :
    b.derivesFrom c ∨ c.derivesFrom b := by
  simp only [derivesFrom_iff_isSuffix] at *
  exact (List.suffix_or_suffix_of_suffix hab hac).symm

/-! ## Steps to the base -/

theorem derivesFrom_of_base? (h : a.base? = some b) : a.derivesFrom b := by
  cases a with
  | root d => cases h
  | extend d base =>
    obtain rfl : base = b := Option.some.inj h
    exact derivesFrom_iff_isSuffix.2 (List.suffix_cons _ _)

/-- A kind derives from those that steps from a kind to its base lead to, and from no others. -/
theorem derivesFrom_iff_reflTransGen :
    a.derivesFrom b ↔ Relation.ReflTransGen (fun k base => k.base? = some base) a b := by
  constructor
  · intro h
    rw [derivesFrom_iff_mem_lineage] at h
    induction a with
    | root d =>
      obtain rfl := List.mem_singleton.1 h
      exact .refl
    | extend d base ih =>
      rcases List.mem_cons.1 h with rfl | h
      · exact .refl
      · exact .head rfl (ih h)
  · intro h
    induction h with
    | refl => exact derivesFrom_refl a
    | tail _ hbase ih => exact derivesFrom_trans ih (derivesFrom_of_base? hbase)

/-! ## Slots -/

/-- The slots of a kind that another one derives from come last among the slots of that. -/
theorem slots_isSuffix (h : a.derivesFrom b) : b.slots <:+ a.slots := by
  rw [slots_eq_flatMap_lineage, slots_eq_flatMap_lineage]
  exact (derivesFrom_iff_isSuffix.1 h).flatMap ownSlots

theorem slotCount_le (h : a.derivesFrom b) : b.slotCount ≤ a.slotCount :=
  (slots_isSuffix h).length_le

/-- **Kinds are ordered as a forest, and slots grow along it.** Deriving is reflexive, transitive and
    antisymmetric, and any two kinds that a kind derives from are comparable; it is what steps to
    the base lead to. The slots read from a kind end with those read from any kind it derives from,
    so there are at least as many, and every name found there is found on it too. -/
theorem derivesFrom_laws :
    (∀ a : Kind, a.derivesFrom a)
      ∧ (∀ a b c : Kind, a.derivesFrom b → b.derivesFrom c → a.derivesFrom c)
      ∧ (∀ a b : Kind, a.derivesFrom b → b.derivesFrom a → a = b)
      ∧ (∀ a b c : Kind, a.derivesFrom b → a.derivesFrom c → b.derivesFrom c ∨ c.derivesFrom b)
      ∧ (∀ a b : Kind, a.derivesFrom b
        ↔ Relation.ReflTransGen (fun k base => k.base? = some base) a b)
      ∧ ∀ a b : Kind, a.derivesFrom b →
        b.cursor.drain.1 <:+ a.cursor.drain.1
          ∧ b.slotCount ≤ a.slotCount
          ∧ ∀ name ∈ b.cursor.drain.1, name ∈ a.cursor.drain.1 := by
  refine ⟨derivesFrom_refl, fun _ _ _ => derivesFrom_trans, fun _ _ => derivesFrom_antisymm,
    fun _ _ _ => derivesFrom_or_derivesFrom, fun _ _ => derivesFrom_iff_reflTransGen, ?_⟩
  intro a b h
  have hsuffix := slots_isSuffix h
  rw [SlotCursor.drain_cursor, SlotCursor.drain_cursor]
  exact ⟨hsuffix, slotCount_le h, fun name hname => hsuffix.subset hname⟩

/-- A root with one slot. -/
def rootLevel : Kind :=
  .root ⟨"root", "Twin", ["left"]⟩

/-- A kind that declares nothing of its own. -/
def bareLevel : Kind :=
  .extend ⟨"bare", "Twin", []⟩ rootLevel

/-- A kind that declares the slot of its root again. All kinds with a `key` of their own that are
    made so have one name and the same slots. -/
def twin (key : String) : Kind :=
  .extend ⟨key, "Twin", ["left"]⟩ bareLevel

/-- A twin derives from the root by way of the bare level. Two twins are different kinds, for all
    that their names and slots are the same, so neither order of them can hold with the other. -/
theorem derivesFrom_laws_twins :
    (twin "first").derivesFrom rootLevel
      ∧ Relation.ReflTransGen (fun k base => k.base? = some base) (twin "first") rootLevel
      ∧ (rootLevel.derivesFrom bareLevel ∨ bareLevel.derivesFrom rootLevel)
      ∧ ¬ ((twin "first").derivesFrom (twin "second") ∧ (twin "second").derivesFrom (twin "first"))
      ∧ rootLevel.cursor.drain.1 <:+ (twin "first").cursor.drain.1
      ∧ rootLevel.slotCount ≤ (twin "first").slotCount := by
  obtain ⟨-, htrans, hantisymm, htotal, hsteps, hslots⟩ := derivesFrom_laws
  have hbare : (twin "first").derivesFrom bareLevel := by decide
  have hroot := htrans _ _ rootLevel hbare (by decide)
  obtain ⟨hsuffix, hcount, -⟩ := hslots _ _ hroot
  refine ⟨hroot, (hsteps _ _).1 hroot, htotal _ _ _ hroot hbare, ?_, hsuffix, hcount⟩
  rintro ⟨hfirst, hsecond⟩
  have heq := hantisymm _ _ hfirst hsecond
  exact absurd heq (by decide)

end NodeForest.Kind
