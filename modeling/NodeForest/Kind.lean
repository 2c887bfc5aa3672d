set_option autoImplicit false

/-! # Node kinds

A kind names a family of nodes and declares the child slots such a node has. A kind may extend
another one: the slots of a kind are its own, then those of its base, and so on to the root of the
chain. Because a kind carries its base inside it, every chain is finite.

Two kinds are the same only if they are one declaration: `KindDecl.key` tells declarations apart
that agree in everything else, and names never decide. -/

namespace NodeForest

/-- What one level of a kind hierarchy declares. -/
structure KindDecl where
  /-- Tells this declaration from every other one. -/
  key : String
  name : String
  /-- The slots this level adds, in declaration order; a name may occur twice. -/
  ownSlots : List String
  deriving DecidableEq

/-- A node kind: its declaration and, unless it is a root, the kind it extends. -/
inductive Kind where
  | root (decl : KindDecl)
  | extend (decl : KindDecl) (base : Kind)
  deriving DecidableEq

namespace Kind

/-- The declaration of the most derived level. -/
def decl : Kind → KindDecl
  | root d => d
  | extend d _ => d

def name (k : Kind) : String :=
  k.decl.name

def ownSlots (k : Kind) : List String :=
  k.decl.ownSlots

/-- The kind this one extends directly. -/
def base? : Kind → Option Kind
  | root _ => none
  | extend _ b => some b

/-- Every slot a node of this kind has: the own ones, then those of each ancestor in turn.
    A name that is declared twice occurs twice. -/
def slots : Kind → List String
  | root d => d.ownSlots
  | extend d b => d.ownSlots ++ b.slots

def slotCount (k : Kind) : Nat :=
  k.slots.length

/-- Whether `ancestor` is `k` itself or one of the kinds it extends, directly or not. -/
def derivesFrom : (k ancestor : Kind) → Bool
  | root d, a => root d == a
  | extend d b, a => extend d b == a || b.derivesFrom a

/-- Whether two names are written with the same bytes: as many of them, and the same at each
    place. -/
def sameBytes (a b : String) : Bool :=
  let as := a.toUTF8.data
  let bs := b.toUTF8.data
  as.size == bs.size && (List.range as.size).all fun i => as[i]? == bs[i]?

theorem sameBytes_iff {a b : String} : sameBytes a b ↔ a = b := by
  constructor
  · intro h
    simp only [sameBytes, Bool.and_eq_true, beq_iff_eq, List.all_eq_true, List.mem_range] at h
    obtain ⟨hsize, hbytes⟩ := h
    refine String.toByteArray_inj.1 (ByteArray.ext (Array.ext_getElem? fun i => ?_))
    by_cases hi : i < a.toUTF8.data.size
    · exact hbytes i hi
    · have hb : ¬ i < b.toUTF8.data.size := by rwa [← hsize]
      exact (Array.getElem?_eq_none (Nat.le_of_not_lt hi)).trans
        (Array.getElem?_eq_none (Nat.le_of_not_lt hb)).symm
  · rintro rfl
    simp [sameBytes]

/-- The place of the first slot called `name` among `slots`. Names are compared byte by byte. -/
def slotIndex? (slots : List String) (name : String) : Option Nat :=
  slots.findIdx? (sameBytes · name)

/-- The search by bytes finds the first equal name. -/
theorem slotIndex?_eq (slots : List String) (name : String) :
    slotIndex? slots name = slots.findIdx? (· == name) := by
  have hsame : (sameBytes · name) = fun slot => slot == name := by
    funext slot
    rw [Bool.eq_iff_iff, sameBytes_iff, beq_iff_eq]
  rw [slotIndex?, hsame]

/-- The place of the own slot called `name`. Own slots come first, so this is also its place among
    all slots of the kind. -/
def ownSlot? (k : Kind) (name : String) : Option Nat :=
  slotIndex? k.ownSlots name

end Kind

end NodeForest
