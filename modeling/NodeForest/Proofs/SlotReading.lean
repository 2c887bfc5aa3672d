import NodeForest.Kind.SlotCursor

set_option autoImplicit false

/-! # Reading the slots of a kind, stopped anywhere

What a cursor has still to give is a list, `SlotCursor.remaining`, said by recursion on the chain of
kinds. A step gives the head of that list and leaves its tail, whether or not it has to pass over
levels that declare nothing. So reading can be stopped and taken up again at any place, and a copy
of a cursor reads on from there without regard to what becomes of the original. -/

namespace NodeForest

/-- The slots of a kind are its own, and then those of the kind it extends. -/
theorem Kind.slots_eq (k : Kind) : k.slots = k.ownSlots ++ k.base?.elim [] Kind.slots := by
  cases k with
  | root d => exact (List.append_nil _).symm
  | extend d b => rfl

namespace SlotCursor

/-- The names that the cursor has still to give. -/
def remaining (c : SlotCursor) : List String :=
  match c.level? with
  | some k => k.ownSlots.drop c.index ++ k.base?.elim [] Kind.slots
  | none => []

theorem remaining_cursor (k : Kind) : k.cursor.remaining = k.slots :=
  k.slots_eq.symm

/-! ## One step -/

section Step

variable {k : Kind} {i : Nat} {name : String}

theorem next_of_name (h : k.ownSlots[i]? = some name) :
    next ⟨some k, i⟩ = (some name, ⟨some k, i + 1⟩) := by
  rw [Kind.ownSlots] at h
  cases k <;> simp_all [next, Kind.advance, Kind.decl]

theorem next_of_used_up (h : k.ownSlots[i]? = none) :
    next ⟨some k, i⟩ = next ⟨k.base?, 0⟩ := by
  rw [Kind.ownSlots] at h
  cases k <;> simp_all [next, Kind.advance, Kind.decl, Kind.base?]

theorem remaining_of_name (h : k.ownSlots[i]? = some name) :
    remaining ⟨some k, i⟩ = name :: remaining ⟨some k, i + 1⟩ := by
  obtain ⟨hlt, hname⟩ := List.getElem?_eq_some_iff.1 h
  simp only [remaining]
  rw [List.drop_eq_getElem_cons hlt, hname, List.cons_append]

theorem remaining_of_used_up (h : k.ownSlots[i]? = none) :
    remaining ⟨some k, i⟩ = remaining ⟨k.base?, 0⟩ := by
  have hlevel : remaining ⟨some k, i⟩ = k.base?.elim [] Kind.slots := by
    simp only [remaining]
    rw [List.drop_eq_nil_of_le (List.getElem?_eq_none_iff.1 h), List.nil_append]
  rw [hlevel]
  cases k with
  | root d => rfl
  | extend d b => exact (remaining_cursor b).symm

end Step

/-- What holds of a cursor that has no level or stands at a name, and of one that stands past the
    names of its level if it holds of the cursor at the start of the next, holds of every cursor. -/
@[elab_as_elim]
theorem passes_induction {motive : SlotCursor → Prop} (done : ∀ i, motive ⟨none, i⟩)
    (atName : ∀ k i name, k.ownSlots[i]? = some name → motive ⟨some k, i⟩)
    (usedUp : ∀ k i, k.ownSlots[i]? = none → motive ⟨k.base?, 0⟩ → motive ⟨some k, i⟩)
    (c : SlotCursor) : motive c := by
  have ofLevel : ∀ k i, motive ⟨k.base?, 0⟩ → motive ⟨some k, i⟩ := by
    intro k i hbase
    cases hname : k.ownSlots[i]? with
    | some name => exact atName k i name hname
    | none => exact usedUp k i hname hbase
  obtain ⟨level?, i⟩ := c
  cases level? with
  | none => exact done i
  | some k =>
    induction k generalizing i with
    | root d => exact ofLevel (.root d) i (done 0)
    | extend d b ih => exact ofLevel (.extend d b) i (ih 0)

/-- **A step gives the first name that remains, and leaves the others.** -/
theorem next_eq (c : SlotCursor) :
    c.next.1 = c.remaining.head? ∧ c.next.2.remaining = c.remaining.tail := by
  induction c using passes_induction with
  | done i => exact ⟨rfl, rfl⟩
  | atName k i name h =>
    rw [next_of_name h, remaining_of_name h]
    exact ⟨rfl, rfl⟩
  | usedUp k i h ih =>
    rw [next_of_used_up h, remaining_of_used_up h]
    exact ih

/-! ## Many steps -/

theorem drain_of_none {c last : SlotCursor} (h : c.next = (none, last)) :
    c.drain = ([], last) := by
  rw [drain]
  split <;> simp_all

theorem drain_of_some {c rest : SlotCursor} {name : String} (h : c.next = (some name, rest)) :
    c.drain = (name :: rest.drain.1, rest.drain.2) := by
  rw [drain]
  split <;> simp_all

/-- Stepping on until nothing is given reads all that remains. -/
theorem drain_eq (c : SlotCursor) : c.drain.1 = c.remaining := by
  generalize hnames : c.remaining = names
  induction names generalizing c with
  | nil =>
    have hhead := (next_eq c).1
    rw [hnames] at hhead
    rw [drain_of_none (Prod.ext hhead rfl)]
  | cons name rest ih =>
    obtain ⟨hhead, htail⟩ := next_eq c
    rw [hnames] at hhead htail
    rw [drain_of_some (Prod.ext hhead rfl), ih c.next.2 htail]

theorem drain_cursor (k : Kind) : k.cursor.drain.1 = k.slots :=
  (drain_eq k.cursor).trans (remaining_cursor k)

/-- So many steps give as many of the names that remain, and nothing once these are used up. -/
theorem take_eq (n : Nat) (c : SlotCursor) :
    (c.take n).1 = (c.remaining.take n).map some ++ List.replicate (n - c.remaining.length) none
      ∧ (c.take n).2.remaining = c.remaining.drop n := by
  induction n generalizing c with
  | zero => simp [take]
  | succ n ih =>
    obtain ⟨hhead, htail⟩ := next_eq c
    obtain ⟨hanswers, hafter⟩ := ih c.next.2
    simp only [take, hanswers, hafter, hhead, htail]
    cases c.remaining with
    | nil => simp [List.replicate_succ]
    | cons name rest => simp

/-- Nothing is left out and nothing is given twice: what was given and what remains make up what
    remained at first. -/
theorem given_append_drain (n : Nat) (c : SlotCursor) :
    (c.take n).1.filterMap id ++ (c.take n).2.drain.1 = c.remaining := by
  obtain ⟨hanswers, hremaining⟩ := take_eq n c
  have hgiven : (c.take n).1.filterMap id = c.remaining.take n := by
    rw [hanswers, List.filterMap_append, List.filterMap_map]
    simp
  rw [hgiven, drain_eq, hremaining, List.take_append_drop]

/-- The last of so many steps is a step of the cursor that the others lead to. -/
theorem take_succ (n : Nat) (c : SlotCursor) :
    c.take (n + 1) = ((c.take n).1 ++ [(c.take n).2.next.1], (c.take n).2.next.2) := by
  induction n generalizing c with
  | zero => rfl
  | succ n ih =>
    show (c.next.1 :: (c.next.2.take (n + 1)).1, (c.next.2.take (n + 1)).2) = _
    rw [ih c.next.2]
    rfl

/-- A cursor that has given nothing gives nothing ever after. -/
theorem take_of_next_eq_none {c : SlotCursor} (h : c.next.1 = none) (n : Nat) :
    (c.next.2.take n).1 = List.replicate n none := by
  obtain ⟨hhead, htail⟩ := next_eq c
  have hnil : c.remaining = [] := List.head?_eq_none_iff.1 (hhead.symm.trans h)
  rw [(take_eq n c.next.2).1, htail, hnil]
  simp

/-! ## The passes of a step -/

/-- A step as a loop: a pass looks at one place, and either ends the step or goes on to the next
    level. The answer is absent if `passes` passes are not enough to end the step. -/
def search : (passes : Nat) → SlotCursor → Option (Option String × SlotCursor)
  | 0, _ => none
  | passes + 1, c =>
    match c.level? with
    | none => some (none, c)
    | some k =>
      match k.ownSlots[c.index]? with
      | some name => some (some name, ⟨some k, c.index + 1⟩)
      | none => search passes ⟨k.base?, 0⟩

end SlotCursor

/-- How many levels a kind has. -/
def Kind.depth : Kind → Nat
  | root _ => 1
  | extend _ b => b.depth + 1

namespace SlotCursor

/-- How many levels the cursor has not left behind. -/
def levelsLeft (c : SlotCursor) : Nat :=
  c.level?.elim 0 Kind.depth

theorem levelsLeft_base? (k : Kind) (i : Nat) :
    levelsLeft ⟨some k, i⟩ = levelsLeft ⟨k.base?, 0⟩ + 1 := by
  cases k <;> rfl

/-- **Every step ends**, after at most one pass more than there are levels left, however many of
    these declare nothing. -/
theorem search_eq (c : SlotCursor) :
    ∃ needed ≤ c.levelsLeft + 1, ∀ passes, c.search passes
      = if needed ≤ passes then some c.next else none := by
  induction c using passes_induction with
  | done i =>
    refine ⟨1, by simp, fun passes => ?_⟩
    cases passes with
    | zero => rfl
    | succ passes => simp [search, next]
  | atName k i name h =>
    refine ⟨1, by simp, fun passes => ?_⟩
    cases passes with
    | zero => rfl
    | succ passes => simp [search, h, next_of_name h]
  | usedUp k i h ih =>
    -- One pass leaves the level behind, and the others are those from the start of the next.
    obtain ⟨needed, hle, hsearch⟩ := ih
    refine ⟨needed + 1, by rw [levelsLeft_base?]; omega, fun passes => ?_⟩
    cases passes with
    | zero => simp [search]
    | succ passes => simp [search, h, next_of_used_up h, hsearch]

end SlotCursor

/-! ## Copies -/

/-- A cursor in use, with all the answers that have led to it: its own, and those of the cursor it
    was copied from until then. -/
structure SlotReader where
  cursor : SlotCursor
  given : List (Option String)

/-- The reader after one more step. -/
def SlotReader.next (r : SlotReader) : SlotReader :=
  ⟨r.cursor.next.2, r.given ++ [r.cursor.next.1]⟩

/-- `SlotReaders k readers`: a cursor has been started on `k`, and steps and copies, of whichever
    cursors and in whichever order, have led to the cursors of `readers`. -/
inductive SlotReaders (k : Kind) : List SlotReader → Prop
  | start : SlotReaders k [⟨k.cursor, []⟩]
  | step {readers : List SlotReader} {r : SlotReader} (i : Nat) : SlotReaders k readers →
      readers[i]? = some r → SlotReaders k (readers.set i r.next)
  | copy {readers : List SlotReader} {r : SlotReader} (i : Nat) : SlotReaders k readers →
      readers[i]? = some r → SlotReaders k (readers ++ [r])

variable {k : Kind} {readers : List SlotReader} {r : SlotReader}

/-- Whatever becomes of the others, a reader is where its own steps alone would have led. -/
theorem SlotReaders.alone (h : SlotReaders k readers) (hr : r ∈ readers) :
    k.cursor.take r.given.length = (r.given, r.cursor) := by
  induction h generalizing r with
  | start =>
    obtain rfl := List.mem_singleton.1 hr
    rfl
  | step i _ hget ih =>
    rcases List.mem_or_eq_of_mem_set hr with hr | rfl
    · exact ih hr
    · have hbefore := ih (List.mem_of_getElem? hget)
      rw [SlotReader.next, List.length_append, List.length_singleton, SlotCursor.take_succ, hbefore]
  | copy i _ hget ih =>
    rcases List.mem_append.1 hr with hr | hr
    · exact ih hr
    · obtain rfl := List.mem_singleton.1 hr
      exact ih (List.mem_of_getElem? hget)

/-- **The slots of a kind are read one at a time, and stopped anywhere.** They are the own slots of
    the kind, then those of the kind it extends, and so on to the root, and so many are counted.
    After any number of steps the names given and the names that remain make up the whole. Cursors
    that are copied on the way read on independently of each other: each is where its own steps
    alone lead. Every step ends, after at most one pass more than there are levels left, and once a
    step has given nothing, no later one gives anything. -/
theorem Kind.cursor_reads_slots (k : Kind) :
    k.slots = k.ownSlots ++ k.base?.elim [] Kind.slots
      ∧ k.slotCount = k.cursor.drain.1.length
      ∧ (∀ n, (k.cursor.take n).1.filterMap id ++ (k.cursor.take n).2.drain.1 = k.slots
        ∧ (k.cursor.take n).1
          = (k.slots.take n).map some ++ List.replicate (n - k.slots.length) none)
      ∧ (∀ readers, SlotReaders k readers → ∀ r ∈ readers,
        k.cursor.take r.given.length = (r.given, r.cursor)
          ∧ r.given.filterMap id ++ r.cursor.drain.1 = k.slots)
      ∧ (∀ c : SlotCursor, ∃ needed ≤ c.levelsLeft + 1, ∀ passes,
        c.search passes = if needed ≤ passes then some c.next else none)
      ∧ ∀ c : SlotCursor, c.next.1 = none → ∀ n, (c.next.2.take n).1 = List.replicate n none := by
  refine ⟨k.slots_eq, ?_, ?_, ?_, SlotCursor.search_eq, fun c => SlotCursor.take_of_next_eq_none⟩
  · rw [SlotCursor.drain_cursor]
    rfl
  · intro n
    rw [SlotCursor.given_append_drain, (SlotCursor.take_eq n k.cursor).1,
      SlotCursor.remaining_cursor]
    exact ⟨rfl, rfl⟩
  · intro readers h r hr
    have hwhole := SlotCursor.given_append_drain r.given.length k.cursor
    rw [h.alone hr, SlotCursor.remaining_cursor] at hwhole
    exact ⟨h.alone hr, hwhole⟩

/-- A kind with a slot that it declares twice and one that its root declares too. The two levels
    between them declare nothing. -/
def bareLevels : Kind :=
  .extend ⟨"leaf", "Leaf", ["left", "right", "left"]⟩
    (.extend ⟨"lower", "Bare", []⟩
      (.extend ⟨"upper", "Bare", []⟩ (.root ⟨"root", "Root", ["right", "top"]⟩)))

/-- The cursor is copied before the bare levels. The copy reads on to the end and beyond it, while
    the original is still before them. -/
theorem Kind.cursor_reads_slots_bareLevels :
    ∃ original copy, SlotReaders bareLevels [original, copy]
      ∧ original.given = [some "left", some "right", some "left"]
      ∧ copy.given = original.given ++ [some "right", some "top", none, none]
      ∧ original.cursor.drain.1 = ["right", "top"]
      ∧ copy.cursor.drain.1 = [] := by
  have started : SlotReaders bareLevels _ := .start
  have copied := (((started.step 0 rfl).step 0 rfl).step 0 rfl).copy 0 rfl
  have ended := (((copied.step 1 rfl).step 1 rfl).step 1 rfl).step 1 rfl
  obtain ⟨-, -, -, hreaders, -⟩ := bareLevels.cursor_reads_slots
  have horiginal := (hreaders _ ended _ List.mem_cons_self).2
  have hcopy := (hreaders _ ended _ (List.mem_cons_of_mem _ List.mem_cons_self)).2
  exact ⟨_, _, ended, rfl, rfl, List.append_cancel_left horiginal, List.append_cancel_left hcopy⟩

end NodeForest
