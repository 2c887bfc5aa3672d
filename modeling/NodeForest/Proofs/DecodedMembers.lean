import Mathlib.Data.List.Forall2
import NodeForest.Snapshot.Decode

set_option autoImplicit false

/-! # Reading fields off the members of an object

The decoder goes through the members of an object once and keeps the fields it has found. Where no
key occurs twice, what it has found at the end does not depend on the order of the members, nor on
members with other names. -/

namespace NodeForest.Snapshot

variable {α β γ : Type} {name : String} {read : Json → Except DecodeError α}
  {members : List (String × Json)} {before found : Option α}

/-- The value of the field `name` that `read` makes of the members: nothing if there is no such
    member. -/
def Field (name : String) (read : Json → Except DecodeError α) (members : List (String × Json)) :
    Option α → Prop
  | some x => ∃ v, (name, v) ∈ members ∧ read v = .ok x
  | none => ∀ v, (name, v) ∉ members

/-- Going through the members first to last with the value `before` of the field ends with the value
    `found`; the field occurs only once. -/
def Finds (name : String) (read : Json → Except DecodeError α) :
    List (String × Json) → (before found : Option α) → Prop
  | [], before, found => found = before
  | (key, v) :: rest, before, found =>
    if key = name then before = none ∧ ∃ x, read v = .ok x ∧ Finds name read rest (some x) found
    else Finds name read rest before found

/-! ## One field -/

theorem finds_some_iff {x : α} :
    Finds name read members (some x) found ↔ found = some x ∧ ∀ v, (name, v) ∉ members := by
  induction members with
  | nil => simp [Finds]
  | cons member rest ih =>
    obtain ⟨key, v⟩ := member
    by_cases hkey : key = name
    · refine iff_of_false (by simp [Finds, hkey]) fun h => h.2 v ?_
      rw [hkey]
      exact List.mem_cons_self
    · simp [Finds, hkey, Ne.symm hkey, ih]

/-- Where no key occurs twice, the order of the members does not matter. -/
theorem finds_none_iff (hkeys : (members.map Prod.fst).Nodup) :
    Finds name read members none found ↔ Field name read members found := by
  induction members with
  | nil => cases found <;> simp [Finds, Field]
  | cons member rest ih =>
    obtain ⟨key, v⟩ := member
    obtain ⟨hfresh, hrest⟩ := List.nodup_cons.1 hkeys
    by_cases hkey : key = name
    · subst hkey
      have hnone : ∀ w, (key, w) ∉ rest := fun w hw => hfresh (List.mem_map.2 ⟨_, hw, rfl⟩)
      cases found <;> simp [Finds, Field, finds_some_iff, hnone, eq_comm]
    · rw [Finds, if_neg hkey, ih hrest]
      cases found <;> simp [Field, Ne.symm hkey]

theorem shapeOfMembers_eq_ok {inner : Bool} {before : Option Shape} {shape : Shape} :
    shapeOfMembers inner before members = .ok shape
      ↔ Finds "shape" (decodeShape inner) members before (some shape) := by
  induction members generalizing before with
  | nil => cases before <;> simp [shapeOfMembers, Finds, eq_comm]
  | cons member rest ih =>
    obtain ⟨key, v⟩ := member
    by_cases hkey : key = "shape"
    · cases before with
      | some _ => simp [shapeOfMembers, Finds, hkey]
      | none =>
        cases hshape : decodeShape inner v <;> simp [shapeOfMembers, Finds, hkey, hshape, ih]
    · simp [shapeOfMembers, Finds, hkey, ih]

/-! ## Two fields -/

/-- Goes through the members and reads two fields off them, given the values found before. -/
def readPair (first second : String) (readFirst : Json → Except DecodeError α)
    (readSecond : Json → Except DecodeError β)
    (finish : Option α → Option β → Except DecodeError γ) :
    Option α → Option β → List (String × Json) → Except DecodeError γ
  | a, b, [] => finish a b
  | a, b, (key, v) :: rest => do
    if key = first then
      let x ← onlyOnce first a (readFirst v)
      readPair first second readFirst readSecond finish (some x) b rest
    else if key = second then
      let y ← onlyOnce second b (readSecond v)
      readPair first second readFirst readSecond finish a (some y) rest
    else readPair first second readFirst readSecond finish a b rest

theorem bind_eq_ok {ε : Type} {x : Except ε α} {f : α → Except ε β} {b : β} :
    x >>= f = .ok b ↔ ∃ a, x = .ok a ∧ f a = .ok b := by
  cases x <;> simp [bind, Except.bind]

theorem onlyOnce_eq_ok {value : Except DecodeError α} {x : α} :
    onlyOnce name before value = .ok x ↔ before = none ∧ value = .ok x := by
  cases before <;> simp [onlyOnce]

/-- The two fields are read independently of each other. -/
theorem readPair_eq_ok {first second : String} {readFirst : Json → Except DecodeError α}
    {readSecond : Json → Except DecodeError β}
    {finish : Option α → Option β → Except DecodeError γ} (hne : first ≠ second)
    {a : Option α} {b : Option β} {result : γ} :
    readPair first second readFirst readSecond finish a b members = .ok result
      ↔ ∃ x y, Finds first readFirst members a x ∧ Finds second readSecond members b y
        ∧ finish x y = .ok result := by
  induction members generalizing a b with
  | nil => simp [readPair, Finds]
  | cons member rest ih =>
    obtain ⟨key, v⟩ := member
    by_cases hfirst : key = first
    · have hsecond : key ≠ second := hfirst ▸ hne
      simp only [readPair, Finds, if_pos hfirst, if_neg hsecond, bind_eq_ok, onlyOnce_eq_ok, ih]
      grind
    · by_cases hsecond : key = second
      · simp only [readPair, Finds, if_neg hfirst, if_pos hsecond, bind_eq_ok, onlyOnce_eq_ok, ih]
        grind
      · simp only [readPair, Finds, if_neg hfirst, if_neg hsecond, ih]

theorem required_eq_ok {value? : Option α} {x : α} :
    required name value? = .ok x ↔ value? = some x := by
  cases value? <;> simp [required]

theorem decodeNodeMembers_eq (kind : Option String) (slots : Option (List (Slot Snapshot))) :
    decodeNodeMembers kind slots members
      = readPair "kind" "slots" decodeString decodeSlots (fun kind slots => do
          let kind ← required "kind" kind
          let slots ← required "slots" slots
          return node kind slots) kind slots members := by
  induction members generalizing kind slots with
  | nil => rw [decodeNodeMembers, readPair]
  | cons member rest ih => simp only [decodeNodeMembers, readPair, ih]

theorem decodeListMembers_eq (kind : Option String) (items : Option (List (Option Snapshot))) :
    decodeListMembers kind items members
      = readPair "kind" "items" decodeString decodeItems (fun kind items => do
          let kind ← required "kind" kind
          let items ← required "items" items
          return list kind items) kind items members := by
  induction members generalizing kind items with
  | nil => rw [decodeListMembers, readPair]
  | cons member rest ih => simp only [decodeListMembers, readPair, ih]

/-- What stands in a slot or at a position. -/
def decodeChild (v : Json) : Except DecodeError (Option Snapshot) :=
  unlessNull v (decodeAt true v)

theorem decodeSlotMembers_eq (name : Option String) (child : Option (Option Snapshot)) :
    decodeSlotMembers name child members
      = readPair "name" "child" decodeString decodeChild (fun name child => do
          let name ← required "name" name
          return ⟨name, child.getD none⟩) name child members := by
  induction members generalizing name child with
  | nil => rw [decodeSlotMembers, readPair]
  | cons member rest ih => simp only [decodeSlotMembers, readPair, decodeChild, ih]

/-! ## Values of fields -/

section Values

variable {v : Json}

/-- The string that gives a shape. -/
def Shape.text : Shape → String
  | .node => "node"
  | .list => "list"

theorem decodeShape_eq_ok {inner : Bool} {shape : Shape} (hv : ∀ number, v ≠ .integer number) :
    decodeShape inner v = .ok shape ↔ v = .string shape.text := by
  unfold decodeShape
  split
  · cases shape <;> simp [Shape.text]
  · cases shape <;> simp [Shape.text]
  · next name hnode hlist =>
    have hne : name ≠ shape.text := by
      rintro rfl
      cases shape with
      | node => exact hnode rfl
      | list => exact hlist rfl
    simp [hne]
  · next number => exact absurd rfl (hv number)
  · next hstring _ => exact iff_of_false nofun fun h => hstring _ h

theorem decodeString_eq_ok {value : String} :
    decodeString v = .ok value ↔ v = .string value := by
  cases v <;> simp [decodeString]

/-- A row of values is decoded value by value. -/
theorem mapM_eq_ok {f : Json → Except DecodeError α} {R : α → Json → Prop} {rows : List Json}
    {xs : List α} (h : ∀ row ∈ rows, ∀ x, f row = .ok x ↔ R x row) :
    rows.mapM f = .ok xs ↔ List.Forall₂ R xs rows := by
  induction rows generalizing xs with
  | nil => simp [pure, Except.pure, eq_comm]
  | cons row rest ih =>
    obtain ⟨hrow, hrest⟩ := List.forall_mem_cons.1 h
    simp only [List.mapM_cons, bind_eq_ok, hrow, ih hrest, pure, Except.pure, Except.ok.injEq]
    constructor
    · rintro ⟨x, hx, more, hmore, rfl⟩
      exact .cons hx hmore
    · rintro (_ | ⟨hx, hmore⟩)
      exact ⟨_, hx, _, hmore, rfl⟩

theorem decodeSlotRows_eq (rows : List Json) : decodeSlotRows rows = rows.mapM decodeSlot := by
  induction rows with
  | nil => rw [decodeSlotRows]; rfl
  | cons row rest ih => rw [decodeSlotRows, List.mapM_cons, ih]

theorem decodeItemRows_eq (rows : List Json) : decodeItemRows rows = rows.mapM decodeChild := by
  induction rows with
  | nil => rw [decodeItemRows]; rfl
  | cons row rest ih => rw [decodeItemRows, List.mapM_cons, ih]; rfl

theorem decodeSlots_eq_ok {slots : List (Slot Snapshot)} :
    decodeSlots v = .ok slots ↔ ∃ rows, v = .array rows ∧ rows.mapM decodeSlot = .ok slots := by
  cases v <;> simp [decodeSlots, decodeSlotRows_eq]

theorem decodeItems_eq_ok {items : List (Option Snapshot)} :
    decodeItems v = .ok items ↔ ∃ rows, v = .array rows ∧ rows.mapM decodeChild = .ok items := by
  cases v <;> simp [decodeItems, decodeItemRows_eq]

theorem decodeChild_eq_ok {child : Option Snapshot} :
    decodeChild v = .ok child
      ↔ v = .null ∧ child = none ∨ ∃ s, child = some s ∧ decodeAt true v = .ok s := by
  by_cases hv : v = .null
  · subst hv
    simp [decodeChild, unlessNull, decodeAt, eq_comm]
  · have hsome : decodeChild v = (decodeAt true v).map some := by
      rw [decodeChild, unlessNull]
      exact hv
    rw [hsome]
    cases decodeAt true v <;> simp [hv, Except.map, eq_comm]

end Values

/-! ## Objects -/

section Objects

variable {inner : Bool} {s : Snapshot} {slot : Slot Snapshot}

theorem decodeNodeMembers_eq_ok (hkeys : (members.map Prod.fst).Nodup) :
    decodeNodeMembers none none members = .ok s
      ↔ ∃ kind slots, Field "kind" decodeString members (some kind)
        ∧ Field "slots" decodeSlots members (some slots) ∧ s = node kind slots := by
  simp only [decodeNodeMembers_eq, readPair_eq_ok (by decide : "kind" ≠ "slots"),
    finds_none_iff hkeys, bind_eq_ok, required_eq_ok, pure, Except.pure, Except.ok.injEq]
  grind

theorem decodeListMembers_eq_ok (hkeys : (members.map Prod.fst).Nodup) :
    decodeListMembers none none members = .ok s
      ↔ ∃ kind items, Field "kind" decodeString members (some kind)
        ∧ Field "items" decodeItems members (some items) ∧ s = list kind items := by
  simp only [decodeListMembers_eq, readPair_eq_ok (by decide : "kind" ≠ "items"),
    finds_none_iff hkeys, bind_eq_ok, required_eq_ok, pure, Except.pure, Except.ok.injEq]
  grind

/-- An object is read as the shape that it names says. -/
theorem decodeAt_object_eq_ok (hkeys : (members.map Prod.fst).Nodup) :
    decodeAt inner (.object members) = .ok s
      ↔ Field "shape" (decodeShape inner) members (some .node)
          ∧ decodeNodeMembers none none members = .ok s
        ∨ Field "shape" (decodeShape inner) members (some .list)
          ∧ decodeListMembers none none members = .ok s := by
  simp only [← finds_none_iff hkeys, ← shapeOfMembers_eq_ok, decodeAt]
  rcases shapeOfMembers inner none members with e | (_ | _) <;> simp

theorem decodeSlot_object_eq_ok (hkeys : (members.map Prod.fst).Nodup) :
    decodeSlot (.object members) = .ok slot
      ↔ Field "name" decodeString members (some slot.name)
        ∧ (Field "child" decodeChild members (some slot.occupant)
          ∨ Field "child" decodeChild members none ∧ slot.occupant = none) := by
  simp only [decodeSlot, decodeSlotMembers_eq, readPair_eq_ok (by decide : "name" ≠ "child"),
    finds_none_iff hkeys, bind_eq_ok, required_eq_ok, pure, Except.pure, Except.ok.injEq]
  constructor
  · rintro ⟨name?, child?, hname, hchild, name, rfl, rfl⟩
    cases child? with
    | none => exact ⟨hname, Or.inr ⟨hchild, rfl⟩⟩
    | some child => exact ⟨hname, Or.inl hchild⟩
  · rintro ⟨hname, hchild | ⟨hchild, hnone⟩⟩
    · exact ⟨_, _, hname, hchild, _, rfl, rfl⟩
    · exact ⟨_, _, hname, hchild, _, rfl, by rw [Option.getD_none, ← hnone]⟩

end Objects

end NodeForest.Snapshot
