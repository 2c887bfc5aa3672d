import NodeForest.Proofs.KindOrder
import NodeForest.Proofs.Outlines

set_option autoImplicit false

/-! # Slots by name

A node has a slot called `name` if one of the levels of its kind declares it. Several levels may,
and one level may do so twice. The slots of the more derived levels come first, so the first slot of
that name is the one that the most derived of these levels declares first. An accessor that knows
only the own slots of a kind, and a search through all slots of a node, find the same slot. -/

namespace NodeForest

namespace Kind

variable {k b level other : Kind} {d : KindDecl} {name : String} {i : Nat}

/-! ## The level that declares a name -/

theorem mem_slots_iff : name ∈ k.slots ↔ ∃ b, k.derivesFrom b ∧ name ∈ b.ownSlots := by
  simp only [slots_eq_flatMap_lineage, List.mem_flatMap, derivesFrom_iff_mem_lineage]

/-- `level` is the most derived of the levels of `k` that declare the slot `name`. -/
structure Declarer (k : Kind) (name : String) (level : Kind) : Prop where
  derives : k.derivesFrom level
  own : name ∈ level.ownSlots
  nearest : ∀ b, k.derivesFrom b → name ∈ b.ownSlots → level.derivesFrom b

theorem Declarer.unique (h : k.Declarer name level) (h' : k.Declarer name other) :
    level = other :=
  derivesFrom_antisymm (h.nearest other h'.derives h'.own) (h'.nearest level h.derives h.own)

theorem declarer_self (h : name ∈ k.ownSlots) : k.Declarer name k where
  derives := derivesFrom_refl k
  own := h
  nearest _ hb _ := hb

/-- A name that a level does not declare itself is declared for it where its base has it from. -/
theorem Declarer.of_base (h : b.Declarer name level) (hown : name ∉ d.ownSlots) :
    (extend d b).Declarer name level where
  derives := derivesFrom_trans (derivesFrom_of_base? rfl) h.derives
  own := h.own
  nearest a ha hname := by
    rw [derivesFrom, Bool.or_eq_true, beq_iff_eq] at ha
    rcases ha with rfl | ha
    · exact absurd hname hown
    · exact h.nearest a ha hname

/-- How many slots of `k` come before those of `level`, one of its levels. -/
def slotsBefore (k level : Kind) : Nat :=
  k.slotCount - level.slotCount

theorem slotsBefore_self (k : Kind) : k.slotsBefore k = 0 :=
  Nat.sub_self _

theorem slotsBefore_extend (h : b.derivesFrom level) :
    (extend d b).slotsBefore level = d.ownSlots.length + b.slotsBefore level := by
  have hle := slotCount_le h
  simp only [slotsBefore, slotCount, slots, List.length_append] at *
  omega

/-! ## The place of a name -/

theorem getElem?_of_findIdx? {names : List String} (h : names.findIdx? (· == name) = some i) :
    names[i]? = some name ∧ name ∉ names.take i := by
  obtain ⟨hi, hname, hbefore⟩ := List.findIdx?_eq_some_iff_getElem.1 h
  rw [List.getElem?_eq_getElem hi, beq_iff_eq.1 hname]
  refine ⟨rfl, fun hmem => ?_⟩
  obtain ⟨j, hj, hname'⟩ := List.mem_take_iff_getElem.1 hmem
  exact hbefore j (by omega) (beq_iff_eq.2 hname')

theorem mem_of_findIdx? {names : List String} (h : names.findIdx? (· == name) = some i) :
    name ∈ names :=
  List.mem_of_getElem? (getElem?_of_findIdx? h).1

/-- The own slots of a kind come first. -/
theorem slots_findIdx?_of_own (h : k.ownSlots.findIdx? (· == name) = some i) :
    k.slots.findIdx? (· == name) = some i := by
  rw [slots_eq, List.findIdx?_append, h]
  rfl

/-- The first slot of a name is the first that the most derived level with that name declares. -/
theorem declarer_of_findIdx? (h : k.slots.findIdx? (· == name) = some i) :
    ∃ level place, k.Declarer name level ∧ level.ownSlots.findIdx? (· == name) = some place
      ∧ i = k.slotsBefore level + place := by
  induction k generalizing i with
  | root d =>
    exact ⟨.root d, i, declarer_self (mem_of_findIdx? h), h, by simp [slotsBefore_self]⟩
  | extend d b ih =>
    rw [slots, List.findIdx?_append] at h
    cases hown : d.ownSlots.findIdx? (· == name) with
    | some place =>
      rw [hown] at h
      obtain rfl : place = i := Option.some.inj h
      exact ⟨.extend d b, place, declarer_self (mem_of_findIdx? hown), hown,
        by simp [slotsBefore_self]⟩
    | none =>
      rw [hown, Option.none_or, Option.map_eq_some_iff] at h
      obtain ⟨j, hj, rfl⟩ := h
      obtain ⟨level, place, hlevel, hplace, rfl⟩ := ih hj
      have hmissing : name ∉ d.ownSlots := by
        intro hname
        simpa using List.findIdx?_eq_none_iff.1 hown name hname
      refine ⟨level, place, hlevel.of_base hmissing, hplace, ?_⟩
      rw [slotsBefore_extend hlevel.derives]
      omega

end Kind

namespace Forest

variable {f : Forest} {n : NodeId} {k : Kind} {name : String} {i : Nat} {value : Option NodeId}

/-! ## Setting a slot by its name -/

/-- All that filling a slot does to slots. -/
theorem slots_fillSlot (f : Forest) (owner : NodeId) (i : Nat) (value : Option NodeId)
    (n : NodeId) :
    (f.fillSlot owner i value).2.slots n
      = if n = owner then (f.slots owner).modify i fun s => { s with occupant := value }
        else f.slots n := by
  rw [fillSlot_eq, (sameContents_handOver ..).slots]
  split
  · subst n
    exact slots_storeSlot_self f owner i value
  · next hn => exact (sameContents_modify_of_ne f _ hn).slots

/-- The outcome of an edit that has put `value` into the slot of `owner` at place `i`, and has
    changed no other slot of any node. -/
structure SlotFilled (f : Forest) (owner : NodeId) (i : Nat) (value : Option NodeId)
    (outcome : Outcome Refusal Answer) : Prop where
  answer : outcome.result = .ok (.previous (f.slotOccupant owner i))
  slots : ∀ n, outcome.forest.slots n
    = if n = owner then (f.slots owner).modify i fun s => { s with occupant := value }
      else f.slots n

theorem slotFilled_perform_setChild (hn : f.isLive n) (hvalue : ∀ v ∈ value, f.isLive v)
    (h : Slot.index? (f.slots n) name = some i) :
    SlotFilled f n i value (f.perform (.setChild n name value)) := by
  rw [perform_setChild hn hvalue, setChild, h]
  exact ⟨rfl, slots_fillSlot f n i value⟩

/-- The end of an edit frees nodes, and changes no slot of those that live on. -/
theorem slots_run_of_isLive {e : Edit} {m : NodeId} (h : (f.run e).forest.isLive m) :
    (f.run e).forest.slots m = (f.perform e).forest.slots m :=
  (sameContents_reclaim h).slots

/-! ## Names in a reachable forest -/

theorem isLive_of_kind? (hkind : f.kind? n = some k) : f.isLive n := by
  simpa [kind?, isLive] using congrArg Option.isSome hkind

/-- A node keeps its kind for life, and the names of its slots are those that are read from it. -/
theorem Reachable.slots_for_life (hf : Reachable f) (hkind : f.kind? n = some k)
    {edits : List Edit} (hlive : (f.runAll edits).isLive n) :
    (f.runAll edits).kind? n = some k
      ∧ ((f.runAll edits).slots n).map Slot.name = k.cursor.drain.1 := by
  have hn := lt_size_of_isLive (isLive_of_kind? hkind)
  have hlater := (sameOutline_runAll hn hlive).2.kind?.trans hkind
  rw [SlotCursor.drain_cursor]
  exact ⟨hlater, (hf.runAll edits).slotsNamed.map_name hlater⟩

section Lookup

variable (hf : Reachable f) (hkind : f.kind? n = some k)

include hf hkind

theorem Reachable.index?_slots (name : String) :
    Slot.index? (f.slots n) name = k.slots.findIdx? (· == name) := by
  rw [← hf.slotsNamed.map_name hkind, List.findIdx?_map]
  rfl

theorem Reachable.isSome_index?_iff :
    (Slot.index? (f.slots n) name).isSome ↔ ∃ b, k.derivesFrom b ∧ name ∈ b.ownSlots := by
  rw [← Kind.mem_slots_iff, hf.index?_slots hkind]
  simp [List.findIdx?_isSome]

/-- The slot that a search finds is the first of its name, and the first that the most derived level
    with that name declares. -/
theorem Reachable.declarer_of_index? (h : Slot.index? (f.slots n) name = some i) :
    ((f.slots n).map Slot.name)[i]? = some name
      ∧ name ∉ ((f.slots n).map Slot.name).take i
      ∧ ∃! level, k.Declarer name level
        ∧ ∃ place, level.ownSlot? name = some place ∧ i = k.slotsBefore level + place := by
  rw [hf.index?_slots hkind] at h
  rw [hf.slotsNamed.map_name hkind]
  obtain ⟨hname, hbefore⟩ := Kind.getElem?_of_findIdx? h
  obtain ⟨level, place, hlevel, hplace, rfl⟩ := Kind.declarer_of_findIdx? h
  have hown : level.ownSlot? name = some place := (Kind.slotIndex?_eq ..).trans hplace
  exact ⟨hname, hbefore, level, ⟨hlevel, place, hown, rfl⟩, fun other h => h.1.unique hlevel⟩

/-- The place of an own slot is found in the kind as it is found in the node. -/
theorem Reachable.index?_of_mem_ownSlots (hown : name ∈ k.ownSlots) :
    ∃ i, k.ownSlot? name = some i ∧ i < (f.slots n).length
      ∧ Slot.index? (f.slots n) name = some i := by
  have hisSome : (k.ownSlots.findIdx? (· == name)).isSome := by
    simpa [List.findIdx?_isSome] using hown
  obtain ⟨i, hi⟩ := Option.isSome_iff_exists.1 hisSome
  have hplace := (hf.index?_slots hkind name).trans (Kind.slots_findIdx?_of_own hi)
  have hlt := (List.findIdx?_eq_some_iff_findIdx_eq.1 hplace).1
  exact ⟨i, (Kind.slotIndex?_eq ..).trans hi, hlt, hplace⟩

theorem Reachable.run_setChild_of_index?_eq_none (hvalue : ∀ v ∈ value, f.isLive v)
    (h : Slot.index? (f.slots n) name = none) :
    (f.run (.setChild n name value)).result = .error (.tree (.unknownSlot k.name name))
      ∧ (f.run (.setChild n name value)).forest = f := by
  have hresult : (f.perform (.setChild n name value)).result
      = .error (.tree (.unknownSlot k.name name)) := by
    rw [perform_setChild (isLive_of_kind? hkind) hvalue, setChild, h, kindName, hkind]
    rfl
  exact ⟨hresult, hf.run_of_error hresult⟩

theorem Reachable.run_setChild_eq_ok_iff (hvalue : ∀ v ∈ value, f.isLive v) :
    (∃ answer, (f.run (.setChild n name value)).result = .ok answer)
      ↔ ∃ b, k.derivesFrom b ∧ name ∈ b.ownSlots := by
  rw [← hf.isSome_index?_iff hkind]
  cases h : Slot.index? (f.slots n) name with
  | some i =>
    have hok := (slotFilled_perform_setChild (isLive_of_kind? hkind) hvalue h).answer
    exact ⟨fun _ => rfl, fun _ => ⟨_, hok⟩⟩
  | none =>
    have herror := (hf.run_setChild_of_index?_eq_none hkind hvalue h).1
    simp [herror]

end Lookup

/-- **A name leads to the same slot everywhere.** While a node is alive its slots are named as its
    kind has them. It has a slot of a name if some level of its kind declares one; that is the first
    slot of the name, and the first that the most derived of these levels declares. Setting a child
    by name succeeds for these names only, and changes this slot and no other; what lives on after
    the edit keeps its slots so. The place that an accessor takes from the own slots of the kind is
    the place of this slot. -/
theorem Reachable.slots_resolve_by_name (hf : Reachable f) (hkind : f.kind? n = some k) :
    (∀ edits, (f.runAll edits).isLive n →
        (f.runAll edits).kind? n = some k
          ∧ ((f.runAll edits).slots n).map Slot.name = k.cursor.drain.1)
      ∧ ∀ name,
        ((Slot.index? (f.slots n) name).isSome ↔ ∃ b, k.derivesFrom b ∧ name ∈ b.ownSlots)
        ∧ (∀ i, Slot.index? (f.slots n) name = some i →
          ((f.slots n).map Slot.name)[i]? = some name
            ∧ name ∉ ((f.slots n).map Slot.name).take i
            ∧ ∃! level, k.Declarer name level
              ∧ ∃ place, level.ownSlot? name = some place ∧ i = k.slotsBefore level + place)
        ∧ (∀ value, (∀ v ∈ value, f.isLive v) →
          ((∃ answer, (f.run (.setChild n name value)).result = .ok answer)
              ↔ ∃ b, k.derivesFrom b ∧ name ∈ b.ownSlots)
            ∧ (∀ i, Slot.index? (f.slots n) name = some i →
              SlotFilled f n i value (f.perform (.setChild n name value))
                ∧ ∀ m, (f.run (.setChild n name value)).forest.isLive m →
                  (f.run (.setChild n name value)).forest.slots m
                    = (f.perform (.setChild n name value)).forest.slots m)
            ∧ (Slot.index? (f.slots n) name = none →
              (f.run (.setChild n name value)).result = .error (.tree (.unknownSlot k.name name))
                ∧ (f.run (.setChild n name value)).forest = f))
        ∧ (name ∈ k.ownSlots → ∃ i, k.ownSlot? name = some i ∧ i < (f.slots n).length
          ∧ Slot.index? (f.slots n) name = some i) := by
  refine ⟨fun _ => hf.slots_for_life hkind, fun name => ⟨hf.isSome_index?_iff hkind,
    fun _ => hf.declarer_of_index? hkind, fun value hvalue => ⟨?_, ?_, ?_⟩,
    hf.index?_of_mem_ownSlots hkind⟩⟩
  · exact hf.run_setChild_eq_ok_iff hkind hvalue
  · intro i hi
    have hfilled := slotFilled_perform_setChild (isLive_of_kind? hkind) hvalue hi
    exact ⟨hfilled, fun m => slots_run_of_isLive⟩
  · exact hf.run_setChild_of_index?_eq_none hkind hvalue

/-- A node with bare levels in its kind, and an identifier. -/
def bareAndIdentifier : List Edit :=
  [.create (Catalogue.spec bareLevels "" false true),
    .create (Catalogue.spec Catalogue.identifier "x" false true)]

/-- The slot `top` comes from the root, past the two bare levels, and is filled; `left` is found at
    the first of its two places; and there is no slot `bottom`. -/
theorem Reachable.slots_resolve_by_name_bareLevels :
    (((empty.runAll bareAndIdentifier).runAll [.setChild 0 "top" (some 1)]).slots 0).map Slot.name
        = ["left", "right", "left", "right", "top"]
      ∧ (∃! level, bareLevels.Declarer "top" level
        ∧ ∃ place, level.ownSlot? "top" = some place ∧ 4 = bareLevels.slotsBefore level + place)
      ∧ SlotFilled (empty.runAll bareAndIdentifier) 0 4 (some 1)
        ((empty.runAll bareAndIdentifier).perform (.setChild 0 "top" (some 1)))
      ∧ ((empty.runAll bareAndIdentifier).run (.setChild 0 "bottom" (some 1))).result
        = .error (.tree (.unknownSlot "Leaf" "bottom"))
      ∧ ∃ i, bareLevels.ownSlot? "left" = some i
        ∧ Slot.index? ((empty.runAll bareAndIdentifier).slots 0) "left" = some i := by
  obtain ⟨hlife, hlookup⟩ := Reachable.slots_resolve_by_name (k := bareLevels) (n := 0)
    (Reachable.start.runAll bareAndIdentifier) (by decide +kernel)
  have hvalue : ∀ v ∈ some 1, (empty.runAll bareAndIdentifier).isLive v := by decide +kernel
  have htop : Slot.index? ((empty.runAll bareAndIdentifier).slots 0) "top" = some 4 := by
    decide +kernel
  obtain ⟨-, hdeclarer, hset, -⟩ := hlookup "top"
  obtain ⟨-, -, hbottom, -⟩ := hlookup "bottom"
  obtain ⟨i, hi, -, hleft⟩ := (hlookup "left").2.2.2 (by decide)
  have hnames := (hlife [.setChild 0 "top" (some 1)] (by decide +kernel)).2
  rw [SlotCursor.drain_cursor] at hnames
  have herror := ((hbottom _ hvalue).2.2 (by decide +kernel)).1
  have hfilled := ((hset _ hvalue).2.1 4 htop).1
  exact ⟨hnames, (hdeclarer 4 htop).2.2, hfilled, herror, i, hi, hleft⟩

end Forest

end NodeForest
