import Mathlib.Data.Finset.Card
import Mathlib.Data.Finset.Range
import Mathlib.Logic.Relation
import NodeForest.Proofs.Places

set_option autoImplicit false

/-! # What is reached from a node

A walk goes from a node to its children. Holding goes further: a list holds what stands in its slots
besides. Every step that does not lie on a circle leaves fewer nodes to be reached, which bounds the
length of every path that closes no circle. -/

namespace NodeForest

open Relation

section Measure

variable {r s : NodeId → NodeId → Prop} {bound : Nat} {a b n owner : NodeId}

open Classical in
/-- The nodes below `bound` that one step or more lead to from `n`. -/
noncomputable def ahead (r : NodeId → NodeId → Prop) (bound : Nat) (n : NodeId) : Finset NodeId :=
  (Finset.range bound).filter (TransGen r n)

open Classical in
theorem mem_ahead : b ∈ ahead r bound a ↔ b < bound ∧ TransGen r a b := by
  unfold ahead
  rw [Finset.mem_filter, Finset.mem_range]

/-- A step to a node on no circle leaves that node behind. -/
theorem card_ahead_lt (hstep : r a b) (hb : b < bound) (hcircle : ¬ TransGen r b b) :
    (ahead r bound b).card < (ahead r bound a).card := by
  refine Finset.card_lt_card (Finset.ssubset_iff_of_subset ?_ |>.2 ⟨b, ?_, ?_⟩)
  · intro m hm
    obtain ⟨hlt, hpath⟩ := mem_ahead.1 hm
    exact mem_ahead.2 ⟨hlt, .head hstep hpath⟩
  · exact mem_ahead.2 ⟨hb, .single hstep⟩
  · exact fun hmem => hcircle (mem_ahead.1 hmem).2

theorem card_ahead_lt_bound (hn : n < bound) (hcircle : ¬ TransGen r n n) :
    (ahead r bound n).card < bound := by
  refine Nat.lt_of_lt_of_eq (Finset.card_lt_card ?_) (Finset.card_range bound)
  refine Finset.ssubset_iff_of_subset (fun m hm => ?_) |>.2 ⟨n, Finset.mem_range.2 hn, ?_⟩
  · exact Finset.mem_range.2 (mem_ahead.1 hm).1
  · exact fun hmem => hcircle (mem_ahead.1 hmem).2

/-- A path through new steps, all of them from `owner`, leads to `owner` and from there to one of
    their ends, unless it takes none of them. -/
theorem transGen_or_of_added {new : NodeId → Prop} (hs : ∀ a b, s a b → r a b ∨ a = owner ∧ new b)
    (h : TransGen s a b) :
    TransGen r a b ∨ ReflTransGen r a owner ∧ ∃ c, new c ∧ ReflTransGen r c b := by
  induction h with
  | single hstep =>
    rcases hs _ _ hstep with hold | ⟨rfl, hnew⟩
    · exact Or.inl (.single hold)
    · exact Or.inr ⟨.refl, _, hnew, .refl⟩
  | tail _ hstep ih =>
    rcases hs _ _ hstep with hold | ⟨rfl, hnew⟩
    · rcases ih with hpath | ⟨hto, c, hc, hfrom⟩
      · exact Or.inl (hpath.tail hold)
      · exact Or.inr ⟨hto, c, hc, hfrom.tail hold⟩
    · rcases ih with hpath | ⟨hto, -⟩
      · exact Or.inr ⟨hpath.to_reflTransGen, _, hnew, .refl⟩
      · exact Or.inr ⟨hto, _, hnew, .refl⟩

/-- New steps from `owner` close no circle if none of their ends leads back to `owner`. -/
theorem acyclic_of_added (owner : NodeId) (new : NodeId → Prop)
    (hs : ∀ a b, s a b → r a b ∨ a = owner ∧ new b)
    (hr : ∀ n, ¬ TransGen r n n) (hnew : ∀ c, new c → ¬ ReflTransGen r c owner) (n : NodeId) :
    ¬ TransGen s n n := by
  intro h
  rcases transGen_or_of_added hs h with hpath | ⟨hto, c, hc, hfrom⟩
  · exact hr n hpath
  · exact hnew c hc (hfrom.trans hto)

end Measure

namespace Forest

/-- A step of a walk: from a node to one of its children. -/
def StepsTo (f : Forest) (p n : NodeId) : Prop :=
  n ∈ f.children p

/-- A walk from `p` comes to `n`. -/
def Visits (f : Forest) : NodeId → NodeId → Prop :=
  ReflTransGen f.StepsTo

/-- No walk from `n` comes to a circle. -/
def Unwinds (f : Forest) (n : NodeId) : Prop :=
  ∀ m, f.Visits n m → ¬ TransGen f.StepsTo m m

/-- `n` is `p`, or is held by a node that is reached from `p`. -/
def Reaches (f : Forest) : NodeId → NodeId → Prop :=
  ReflTransGen fun p n => f.holds p n

/-- No node holds itself, be it through other nodes. -/
def Acyclic (f : Forest) : Prop :=
  ∀ n, ¬ TransGen (fun p n => f.holds p n) n n

variable {f : Forest} {p n m : NodeId}

theorem StepsTo.holds (h : f.StepsTo p n) : f.holds p n :=
  holds_of_mem_places (mem_children.1 h)

theorem StepsTo.isLive (h : f.StepsTo p n) : f.isLive p :=
  isLive_of_holds h.holds

theorem Unwinds.of_visits (h : f.Unwinds p) (hn : f.Visits p n) : f.Unwinds n :=
  fun m hm => h m (hn.trans hm)

/-- A walk stays among nodes whose children are among them. -/
theorem Visits.mem_of_closed {nodes : List NodeId} (h : f.Visits p n) (hp : p ∈ nodes)
    (hclosed : ∀ m ∈ nodes, ∀ c ∈ f.children m, c ∈ nodes) : n ∈ nodes := by
  induction h with
  | refl => exact hp
  | tail _ hstep ih => exact hclosed _ ih _ hstep

theorem Acyclic.unwinds (hf : f.Acyclic) (n : NodeId) : f.Unwinds n := by
  intro m _ hcircle
  exact hf m (TransGen.mono (fun _ _ => StepsTo.holds) _ _ hcircle)

/-- Without circles what holds of a node if it holds of all its holders holds of every node. -/
theorem Acyclic.induction_up {motive : NodeId → Prop} (hf : f.Acyclic)
    (step : ∀ n, (∀ p, f.holds p n → motive p) → motive n) (n : NodeId) : motive n := by
  -- Whoever holds a node has fewer holders above it.
  induction hcard : (ahead (fun n p => f.holds p n) f.nodes.size n).card
    using Nat.strong_induction_on generalizing n with
  | _ card ih =>
    refine step n fun p hholds => ?_
    have hcircle : ¬ TransGen (fun n p => f.holds p n) p p := fun h => hf p (transGen_swap.1 h)
    have hcloser := card_ahead_lt (r := fun n p => f.holds p n) hholds
      (lt_size_of_isLive (isLive_of_holds hholds)) hcircle
    exact ih _ (hcard ▸ hcloser) p rfl

end Forest

end NodeForest
