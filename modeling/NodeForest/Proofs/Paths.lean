import Mathlib.Data.List.Induction
import NodeForest.Proofs.Reach

set_option autoImplicit false

/-! # Paths down from a node

A path is the list of the positions at which it goes down. Below a node to each of whose descendants
one path leads there are no circles, and what two positions lead to has nothing in common. -/

namespace NodeForest.Forest

open Relation

/-- The child at position `i`, if the place there is not empty. -/
def childAt (f : Forest) (p : NodeId) (i : Nat) : Option NodeId :=
  (f.places p)[i]?.join

/-- The node that a path leads to. -/
def follow (f : Forest) (n : NodeId) : (path : List Nat) → Option NodeId
  | [] => some n
  | i :: path => (f.childAt n i).bind (f.follow · path)

/-- No two paths from `root` lead to one node. -/
def OnePathEach (f : Forest) (root : NodeId) : Prop :=
  ∀ path path' n, f.follow root path = some n → f.follow root path' = some n → path = path'

variable {f : Forest} {root p n c c' : NodeId} {i j : Nat} {path : List Nat}

theorem childAt_eq_some : f.childAt p i = some n ↔ (f.places p)[i]? = some (some n) :=
  Option.join_eq_some_iff

theorem stepsTo_iff_exists_childAt : f.StepsTo p n ↔ ∃ i, f.childAt p i = some n := by
  rw [StepsTo, mem_children, List.mem_iff_getElem?]
  simp only [childAt_eq_some]

theorem follow_cons_eq_some :
    f.follow root (i :: path) = some n ↔
      ∃ c, f.childAt root i = some c ∧ f.follow c path = some n :=
  Option.bind_eq_some_iff

theorem follow_concat_eq_some :
    f.follow root (path ++ [i]) = some n ↔
      ∃ p, f.follow root path = some p ∧ f.childAt p i = some n := by
  induction path generalizing root with
  | nil => simp [follow]
  | cons j rest ih =>
    simp only [List.cons_append, follow_cons_eq_some, ih]
    constructor
    · rintro ⟨c, hc, p, hp, hn⟩
      exact ⟨p, ⟨c, hc, hp⟩, hn⟩
    · rintro ⟨p, ⟨c, hc, hp⟩, hn⟩
      exact ⟨c, hc, p, hp, hn⟩

/-- Paths lead where walks come to. -/
theorem visits_iff_exists_follow : f.Visits root n ↔ ∃ path, f.follow root path = some n := by
  constructor
  · intro h
    induction h with
    | refl => exact ⟨[], rfl⟩
    | tail _ hstep ih =>
      obtain ⟨path, hpath⟩ := ih
      obtain ⟨i, hi⟩ := stepsTo_iff_exists_childAt.1 hstep
      exact ⟨path ++ [i], follow_concat_eq_some.2 ⟨_, hpath, hi⟩⟩
  · rintro ⟨path, hpath⟩
    induction path generalizing root with
    | nil => exact Option.some.inj hpath ▸ .refl
    | cons i rest ih =>
      obtain ⟨c, hc, hrest⟩ := follow_cons_eq_some.1 hpath
      exact .head (stepsTo_iff_exists_childAt.2 ⟨i, hc⟩) (ih hrest)

/-! ## One path to each node -/

namespace OnePathEach

variable (h : f.OnePathEach root)

include h

theorem childAt (hc : f.childAt root i = some c) : f.OnePathEach c := by
  intro path path' n hn hn'
  have heq := h (i :: path) (i :: path') n (follow_cons_eq_some.2 ⟨c, hc, hn⟩)
    (follow_cons_eq_some.2 ⟨c, hc, hn'⟩)
  exact (List.cons.inj heq).2

theorem of_visits (hn : f.Visits root n) : f.OnePathEach n := by
  induction hn with
  | refl => exact h
  | tail _ hstep ih =>
    obtain ⟨i, hi⟩ := stepsTo_iff_exists_childAt.1 hstep
    exact ih.childAt hi

theorem not_visits_root (hc : f.childAt root i = some c) : ¬ f.Visits c root := by
  intro hback
  obtain ⟨path, hpath⟩ := visits_iff_exists_follow.1 hback
  cases h [] (i :: path) root rfl (follow_cons_eq_some.2 ⟨c, hc, hpath⟩)

/-- What is below one position is not below another. -/
theorem not_visits_of_ne (hc : f.childAt root i = some c) (hc' : f.childAt root j = some c')
    (hne : i ≠ j) (hn : f.Visits c n) : ¬ f.Visits c' n := by
  intro hn'
  obtain ⟨path, hpath⟩ := visits_iff_exists_follow.1 hn
  obtain ⟨path', hpath'⟩ := visits_iff_exists_follow.1 hn'
  have heq := h (i :: path) (j :: path') n (follow_cons_eq_some.2 ⟨c, hc, hpath⟩)
    (follow_cons_eq_some.2 ⟨c', hc', hpath'⟩)
  exact hne (List.cons.inj heq).1

theorem unwinds : f.Unwinds root := by
  intro n hn hcircle
  obtain ⟨c, hstep, hback⟩ := TransGen.head'_iff.1 hcircle
  obtain ⟨i, hi⟩ := stepsTo_iff_exists_childAt.1 hstep
  exact (h.of_visits hn).not_visits_root hi hback

end OnePathEach

/-! ## Trees -/

/-- Every position of every node. -/
def positions (f : Forest) : List (NodeId × Nat) :=
  (List.range f.nodes.size).flatMap fun p => (List.range (f.places p).length).map (p, ·)

/-- No node stands in two places. -/
def SolePlaces (f : Forest) : Prop :=
  ∀ a ∈ f.positions, ∀ b ∈ f.positions,
    (f.childAt a.1 a.2).isSome → f.childAt a.1 a.2 = f.childAt b.1 b.2 → a = b

instance (f : Forest) : Decidable f.SolePlaces :=
  inferInstanceAs (Decidable (∀ a ∈ f.positions, ∀ b ∈ f.positions,
    (f.childAt a.1 a.2).isSome → f.childAt a.1 a.2 = f.childAt b.1 b.2 → a = b))

/-- `n` stands in no place. -/
def IsTop (f : Forest) (n : NodeId) : Prop :=
  ∀ p < f.nodes.size, some n ∉ f.places p

instance (f : Forest) (n : NodeId) : Decidable (f.IsTop n) :=
  inferInstanceAs (Decidable (∀ p < f.nodes.size, some n ∉ f.places p))

theorem lt_size_of_childAt (h : f.childAt p i = some n) : p < f.nodes.size :=
  lt_size_of_isLive (stepsTo_iff_exists_childAt.2 ⟨i, h⟩).isLive

theorem mem_positions_of_childAt (h : f.childAt p i = some n) : (p, i) ∈ f.positions := by
  have hi := (List.getElem?_eq_some_iff.1 (childAt_eq_some.1 h)).1
  simp only [positions, List.mem_flatMap, List.mem_map, List.mem_range]
  exact ⟨p, lt_size_of_childAt h, i, hi, rfl⟩

theorem SolePlaces.eq_of_childAt (h : f.SolePlaces) {q : NodeId} (hp : f.childAt p i = some n)
    (hq : f.childAt q j = some n) : p = q ∧ i = j := by
  have heq := h (p, i) (mem_positions_of_childAt hp) (q, j) (mem_positions_of_childAt hq)
    (by simp [hp]) (hp.trans hq.symm)
  exact Prod.mk.inj heq

theorem IsTop.childAt_ne (h : f.IsTop n) : f.childAt p i ≠ some n := by
  intro hn
  exact h p (lt_size_of_childAt hn) (List.mem_of_getElem? (childAt_eq_some.1 hn))

/-- Where no node stands in two places, one path leads from a top to each node. -/
theorem SolePlaces.onePathEach (h : f.SolePlaces) (htop : f.IsTop root) : f.OnePathEach root := by
  intro path path' n hn hn'
  -- Both paths end with the same step, into the one place of `n`.
  induction path using List.reverseRecOn generalizing path' n with
  | nil =>
    obtain rfl := Option.some.inj hn
    rcases path'.eq_nil_or_concat' with rfl | ⟨rest, j, rfl⟩
    · rfl
    · obtain ⟨p, -, hroot⟩ := follow_concat_eq_some.1 hn'
      exact absurd hroot htop.childAt_ne
  | append_singleton path i ih =>
    obtain ⟨p, hp, hchild⟩ := follow_concat_eq_some.1 hn
    rcases path'.eq_nil_or_concat' with rfl | ⟨path', j, rfl⟩
    · obtain rfl := Option.some.inj hn'
      exact absurd hchild htop.childAt_ne
    · obtain ⟨q, hq, hchild'⟩ := follow_concat_eq_some.1 hn'
      obtain ⟨rfl, rfl⟩ := h.eq_of_childAt hchild hchild'
      rw [ih path' p hp hq]

/-- Where no node stands in two places, walks from two tops have nothing in common. -/
theorem SolePlaces.eq_of_visits (h : f.SolePlaces) {top top' : NodeId} (htop : f.IsTop top)
    (htop' : f.IsTop top') (hn : f.Visits top n) (hn' : f.Visits top' n) : top = top' := by
  have hno : ∀ {t p n}, f.IsTop t → f.StepsTo p n → n ≠ t := by
    rintro t p n ht hstep rfl
    obtain ⟨i, hi⟩ := stepsTo_iff_exists_childAt.1 hstep
    exact ht.childAt_ne hi
  induction hn with
  | refl =>
    rcases hn'.cases_tail with heq | ⟨p, -, hstep⟩
    · exact heq
    · exact absurd rfl (hno htop hstep)
  | tail _ hstep ih =>
    rcases hn'.cases_tail with rfl | ⟨q, hq, hstep'⟩
    · exact absurd rfl (hno htop' hstep)
    · obtain ⟨i, hi⟩ := stepsTo_iff_exists_childAt.1 hstep
      obtain ⟨j, hj⟩ := stepsTo_iff_exists_childAt.1 hstep'
      obtain ⟨rfl, -⟩ := h.eq_of_childAt hi hj
      exact ih hq

end NodeForest.Forest
