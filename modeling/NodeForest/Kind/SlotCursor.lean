import NodeForest.Kind

set_option autoImplicit false

/-! # Reading the slots of a kind one at a time

A `SlotCursor` stands at one place of one level of a kind chain. `SlotCursor.next` gives the name
there and moves on; where a level is used up it goes to the next level that still has a name, so a
single step may pass over any number of levels that declare nothing. -/

namespace NodeForest

/-- A place in a kind chain: the level being read, absent once the chain is used up, and how many
    names of that level have been given. -/
structure SlotCursor where
  level? : Option Kind
  index : Nat
  deriving DecidableEq

/-- The cursor that has given nothing yet. -/
def Kind.cursor (k : Kind) : SlotCursor :=
  ⟨some k, 0⟩

/-- One step from place `index` of the first level of `k`. -/
def Kind.advance : (k : Kind) → (index : Nat) → Option String × SlotCursor
  | .root d, i =>
    match d.ownSlots[i]? with
    | some name => (some name, ⟨some (.root d), i + 1⟩)
    | none => (none, ⟨none, 0⟩)
  | .extend d b, i =>
    match d.ownSlots[i]? with
    | some name => (some name, ⟨some (.extend d b), i + 1⟩)
    | none => b.advance 0

/-- How many names lie ahead of place `index` of the first level of `k`: what is left of that
    level, and all levels after it. -/
def Kind.ahead : (k : Kind) → (index : Nat) → Nat
  | .root d, i => d.ownSlots.length - i
  | .extend d b, i => d.ownSlots.length - i + b.slots.length

theorem Kind.ahead_zero (k : Kind) : k.ahead 0 = k.slots.length := by
  cases k <;> simp [Kind.ahead, Kind.slots]

namespace SlotCursor

/-- The next name, if there is one, and the cursor after it. -/
def next (c : SlotCursor) : Option String × SlotCursor :=
  match c.level? with
  | some k => k.advance c.index
  | none => (none, c)

/-- The answers of `n` steps and the cursor after them. -/
def take : Nat → SlotCursor → List (Option String) × SlotCursor
  | 0, c => ([], c)
  | n + 1, c =>
    let (name?, c) := c.next
    let (rest, c) := take n c
    (name? :: rest, c)

/-- How many names lie ahead of the cursor. -/
def ahead (c : SlotCursor) : Nat :=
  match c.level? with
  | some k => k.ahead c.index
  | none => 0

theorem ahead_advance (k : Kind) (i : Nat) (name : String) (h : (k.advance i).1 = some name) :
    (k.advance i).2.ahead < k.ahead i := by
  induction k generalizing i with
  | root d =>
    simp only [Kind.advance] at h ⊢
    split at h
    · rename_i hget
      have hlt := (List.getElem?_eq_some_iff.mp hget).1
      simp only [ahead, Kind.ahead]
      omega
    · simp at h
  | extend d b ih =>
    simp only [Kind.advance] at h ⊢
    split at h
    · rename_i hget
      have hlt := (List.getElem?_eq_some_iff.mp hget).1
      simp only [ahead, Kind.ahead]
      omega
    · have hb := ih 0 h
      rw [Kind.ahead_zero] at hb
      simp only [Kind.ahead]
      omega

/-- A step that gives a name leaves fewer names ahead. -/
theorem ahead_next (c : SlotCursor) (name : String) (h : c.next.1 = some name) :
    c.next.2.ahead < c.ahead := by
  obtain ⟨level?, i⟩ := c
  cases level? with
  | none => simp [next] at h
  | some k => exact ahead_advance k i name h

/-- Every name the cursor still gives, read by stepping until a step gives none, and the cursor
    after that step. -/
def drain (c : SlotCursor) : List String × SlotCursor :=
  match c.next, ahead_next c with
  | (none, last), _ => ([], last)
  | (some name, rest), h =>
    have : rest.ahead < c.ahead := h name rfl
    let (names, last) := drain rest
    (name :: names, last)
  termination_by c.ahead

end SlotCursor

end NodeForest
