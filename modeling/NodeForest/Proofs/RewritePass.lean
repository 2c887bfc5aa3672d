import Mathlib.Data.List.Basic
import NodeForest.Proofs.ItemReplacement
import NodeForest.Proofs.SingleOwner

set_option autoImplicit false

/-! # A rewriting pass over a list

A pass asks items of a list, one after the other, to have themselves replaced. Every splice moves
the items behind it, and still each request finds its item, by the parent link and by identity. What
a pass comes to does not depend on the order of the requests: each item gives way to what its
replacement brings, as by `List.flatMap`. `RewritePlan` states what a pass needs, and one request
leaves a plan for the requests that remain. -/

namespace NodeForest

/-! ## Exchanging an element that occurs once -/

theorem exchange_self {α : Type} {places : List α} {i : Nat} {a : α}
    (h : places[i]? = some a) : exchange places i [a] = places := by
  obtain ⟨hi, hget⟩ := List.getElem?_eq_some_iff.1 h
  rw [← set_eq_exchange hi, ← hget, List.set_getElem_self]

theorem count_exchange {α : Type} [BEq α] [LawfulBEq α] (places : List α) (i : Nat) (moved : List α)
    (a : α) : (exchange places i moved).count a
      = (places.take i).count a + moved.count a + (places.drop (i + 1)).count a := by
  rw [exchange, List.count_append, List.count_append]

/-- Where an element occurs once, it occurs neither before nor after. -/
theorem not_mem_take_and_drop {α : Type} [BEq α] [LawfulBEq α] {places : List α} {i : Nat} {a : α}
    (h : places[i]? = some a) (hone : places.count a = 1) :
    a ∉ places.take i ∧ a ∉ places.drop (i + 1) := by
  have hcount := count_exchange places i [a] a
  rw [exchange_self h, hone, List.count_singleton_self] at hcount
  constructor
  · rw [← List.count_eq_zero]
    omega
  · rw [← List.count_eq_zero]
    omega

theorem count_exchange_of_ne {α : Type} [BEq α] [LawfulBEq α] {places : List α} {i : Nat} {a b : α}
    (h : places[i]? = some a) (hne : b ≠ a) (moved : List α) :
    (exchange places i moved).count b = places.count b + moved.count b := by
  have hcount := count_exchange places i [a] b
  have hzero : [a].count b = 0 := List.count_eq_zero.2 (by simpa using hne)
  rw [exchange_self h, hzero] at hcount
  rw [count_exchange, hcount]
  omega

/-- Elements other than `a` are mapped alike, and what stands for `a` is mapped to what `a` is. -/
theorem flatMap_exchange {α β : Type} {φ ψ : α → List β} {places moved : List α} {i : Nat} {a : α}
    (h : places[i]? = some a) (hmoved : moved.flatMap φ = ψ a)
    (hbefore : ∀ b ∈ places.take i, φ b = ψ b) (hafter : ∀ b ∈ places.drop (i + 1), φ b = ψ b) :
    (exchange places i moved).flatMap φ = places.flatMap ψ := by
  calc (exchange places i moved).flatMap φ
      = (places.take i).flatMap φ ++ moved.flatMap φ ++ (places.drop (i + 1)).flatMap φ := by
        rw [exchange, List.flatMap_append, List.flatMap_append]
    _ = (places.take i).flatMap ψ ++ [a].flatMap ψ ++ (places.drop (i + 1)).flatMap ψ := by
        rw [List.flatMap_congr hbefore, List.flatMap_congr hafter, hmoved, List.flatMap_singleton]
    _ = (exchange places i [a]).flatMap ψ := by
        rw [exchange, List.flatMap_append, List.flatMap_append]
    _ = places.flatMap ψ := by rw [exchange_self h]

namespace Forest

variable {f g : Forest} {list : NodeId} {new : NodeId → NodeId} {todo : List NodeId}

/-! ## Plans -/

/-- What a pass needs that asks the items `todo` of `list` to have themselves replaced. `new` gives
    each of them a replacement of its own, which nobody holds. A replacement that is to be taken
    apart is the only holder of what it holds as items. -/
structure RewritePlan (f : Forest) (list : NodeId) (new : NodeId → NodeId) (todo : List NodeId) :
    Prop where
  selfKnown : f.self? list = some list
  standsOnce : ∀ e ∈ todo, (f.items list).count (some e) = 1
  child : ∀ e ∈ todo, f.parent? e = some list ∧ f.self? e = some e
  /-- A caller refers to the item, so that it outlives its replacement. -/
  retained : ∀ e ∈ todo, 0 < f.callers e
  fresh : ∀ e ∈ todo, f.isLive (new e) ∧ new e ≠ list ∧ ¬ f.isHeld (new e)
  distinct : ∀ e ∈ todo, ∀ e' ∈ todo, new e = new e' → e = e'
  soleHolder : ∀ e ∈ todo, f.Splices list (new e) →
    ∀ n, some n ∈ f.items (new e) → f.HeldOnlyBy (new e) n

section Plan

variable {e e' : NodeId}

theorem RewritePlan.mem_items (plan : RewritePlan f list new todo) (he : e ∈ todo) :
    some e ∈ f.items list := by
  have hone := plan.standsOnce e he
  exact List.count_pos_iff.1 (by omega)

theorem RewritePlan.holds (plan : RewritePlan f list new todo) (he : e ∈ todo) :
    f.holds list e :=
  holds_iff.2 (Or.inr (plan.mem_items he))

/-- Only the replacement that brings a node can hold it. -/
theorem RewritePlan.eq_new_of_holds (plan : RewritePlan f list new todo) (he : e ∈ todo)
    {n p : NodeId} (h : some n ∈ f.brought list (new e)) (hp : f.holds p n) : p = new e := by
  by_cases hsplices : f.Splices list (new e)
  · rw [brought, if_pos hsplices] at h
    exact plan.soleHolder e he hsplices n h p hp
  · rw [brought, if_neg hsplices] at h
    obtain rfl := Option.some.inj (List.mem_singleton.1 h)
    exact absurd (isHeld_of_holds hp) (plan.fresh e he).2.2

/-- No replacement brings an item that is to be replaced. -/
theorem RewritePlan.not_mem_brought (plan : RewritePlan f list new todo) (he : e ∈ todo)
    (he' : e' ∈ todo) : some e' ∉ f.brought list (new e) := by
  intro h
  exact (plan.fresh e he).2.1 (plan.eq_new_of_holds he h (plan.holds he')).symm

/-- A replacement is brought only in its own place, and only if it is not taken apart. -/
theorem RewritePlan.of_new_mem_brought (plan : RewritePlan f list new todo) (he : e ∈ todo)
    (he' : e' ∈ todo) (h : some (new e') ∈ f.brought list (new e)) :
    e' = e ∧ ¬ f.Splices list (new e) := by
  rcases mem_brought.1 h with ⟨-, hitem⟩ | ⟨hnot, heq⟩
  · exact absurd (isHeld_of_holds (holds_iff.2 (Or.inr hitem))) (plan.fresh e' he').2.2
  · exact ⟨plan.distinct e' he' e he heq, hnot⟩

end Plan

/-! ## One request -/

/-- The edit is carried out. -/
def Succeeds (f : Forest) (e : Edit) : Prop :=
  ∃ answer, (f.run e).result = .ok answer

section Step

variable {e : NodeId} {rest : List NodeId} {i : Nat}

theorem RewritePlan.exists_position (plan : RewritePlan f list new todo) (he : e ∈ todo) :
    ∃ i, f.position? list e = some i := by
  rw [← Option.ne_none_iff_exists', Ne, position?_eq_none]
  exact fun hnot => hnot (plan.mem_items he)

/-- The request finds its item, and no node is lost by it. -/
theorem RewritePlan.request (hf : Reachable f) (plan : RewritePlan f list new todo)
    (he : e ∈ todo) (hpos : f.position? list e = some i) :
    Succeeds f (.replace e (new e))
      ∧ ItemReplaced f list i e (new e) (f.run (.replace e (new e))).forest := by
  obtain ⟨hparent, hself⟩ := plan.child e he
  obtain ⟨hlive, hne, -⟩ := plan.fresh e he
  have hperform : f.perform (.replace e (new e)) = (f.replace e (new e)).ofTree .replaced :=
    perform_replace (isLive_of_callers_pos (plan.retained e he)) hlive
  have hforest : (f.perform (.replace e (new e))).forest
      = (f.replaceChild list e (new e)).forest := by
    rw [hperform, replace_eq_replaceChild hparent hself]
    rfl
  have h := itemReplaced_replaceChild hpos hne
  have hsettled : Settled (f.replaceChild list e (new e)).forest := by
    refine hf.settled.of_kept (fun n => (h.shell n).isLive) (fun n => (h.shell n).callers) ?_
    intro p n hholds
    rcases h.held_or (getElem?_of_position? hpos) hholds with hkept | rfl
    · exact Or.inl hkept
    · exact Or.inr (plan.retained n he)
  constructor
  · have hresult := result_replaceChild_list hpos hne
    refine ⟨.replaced (if f.Splices list (new e) then .spliced (f.items (new e)).length
      else .single (new e)), ?_⟩
    show (f.perform (.replace e (new e))).result = _
    rw [hperform, replace_eq_replaceChild hparent hself, Outcome.ofTree]
    simp only [hresult]
  · rw [run_forest_eq (hforest ▸ hsettled), hforest]
    exact h

theorem ItemReplaced.splices_iff (h : ItemReplaced f list i e (new e) g) (r : NodeId) :
    g.Splices list r ↔ f.Splices list r :=
  splices_congr (fun n => (h.shell n).isList) (fun n => (h.shell n).kind?) list r

/-- A request leaves the replacements of the other items as they are. -/
theorem RewritePlan.items_new (plan : RewritePlan f list new (e :: rest)) (hnot : e ∉ rest)
    (h : ItemReplaced f list i e (new e) g) {e' : NodeId} (he' : e' ∈ rest) :
    g.items (new e') = f.items (new e') := by
  have hmem := List.mem_cons_of_mem e he'
  refine h.itemsOther (new e') (plan.fresh e' hmem).2.1 ?_
  rintro ⟨heq, -⟩
  obtain rfl := plan.distinct e' hmem e List.mem_cons_self heq
  exact hnot he'

theorem RewritePlan.brought_eq (plan : RewritePlan f list new (e :: rest)) (hnot : e ∉ rest)
    (h : ItemReplaced f list i e (new e) g) {e' : NodeId} (he' : e' ∈ rest) :
    g.brought list (new e') = f.brought list (new e') := by
  unfold brought
  rw [plan.items_new hnot h he']
  simp only [h.splices_iff]

/-- One request leaves a plan for the others. -/
theorem RewritePlan.after (plan : RewritePlan f list new (e :: rest)) (hnot : e ∉ rest)
    (hpos : f.position? list e = some i) (h : ItemReplaced f list i e (new e) g) :
    RewritePlan g list new rest := by
  have hfirst : e ∈ e :: rest := List.mem_cons_self
  have hmem : ∀ e' ∈ rest, e' ∈ e :: rest := fun e' he' => List.mem_cons_of_mem e he'
  have hne : ∀ e' ∈ rest, e' ≠ e := by
    rintro e' he' rfl
    exact hnot he'
  refine
    { selfKnown := (h.shell list).self?.trans plan.selfKnown
      standsOnce := ?_
      child := ?_
      retained := fun e' he' => (h.shell e').callers ▸ plan.retained e' (hmem e' he')
      fresh := ?_
      distinct := fun e' he' e'' he'' => plan.distinct e' (hmem e' he') e'' (hmem e'' he'')
      soleHolder := ?_ }
  · intro e' he'
    have hmoved : (f.brought list (new e)).count (some e') = 0 :=
      List.count_eq_zero.2 (plan.not_mem_brought hfirst (hmem e' he'))
    have hother : some e' ≠ some e := fun heq => hne e' he' (Option.some.inj heq)
    rw [h.items, count_exchange_of_ne (getElem?_of_position? hpos) hother, hmoved,
      plan.standsOnce e' (hmem e' he')]
  · intro e' he'
    obtain ⟨hparent, hself⟩ := plan.child e' (hmem e' he')
    rw [h.parentOther e' (hne e' he') (plan.not_mem_brought hfirst (hmem e' he')),
      (h.shell e').self?]
    exact ⟨hparent, hself⟩
  · intro e' he'
    obtain ⟨hlive, hlist, hfree⟩ := plan.fresh e' (hmem e' he')
    refine ⟨(h.shell (new e')).isLive.trans hlive, hlist, ?_⟩
    intro hheld
    obtain ⟨p, hp⟩ := isHeld_iff.1 hheld
    rcases h.holds_or hp with hbefore | ⟨-, hbrought⟩
    · exact hfree (isHeld_of_holds hbefore)
    · exact hne e' he' (plan.of_new_mem_brought hfirst (hmem e' he') hbrought).1
  · intro e' he' hsplices n hn p hp
    rw [plan.items_new hnot h he'] at hn
    rcases h.holds_or hp with hbefore | ⟨-, hbrought⟩
    · exact plan.soleHolder e' (hmem e' he') ((h.splices_iff (new e')).1 hsplices) n hn p hbefore
    · -- The first replacement cannot have brought a node that this one holds.
      have hsame := plan.eq_new_of_holds hfirst hbrought (holds_iff.2 (Or.inr hn))
      exact absurd (plan.distinct e' (hmem e' he') e hfirst hsame) (hne e' he')

end Step

/-! ## The whole pass -/

/-- What stands in the place of an item after a pass over `todo`. -/
def rewriteItem (f : Forest) (list : NodeId) (new : NodeId → NodeId) (todo : List NodeId)
    (item : Option NodeId) : List (Option NodeId) :=
  item.elim [none] fun e => if e ∈ todo then f.brought list (new e) else [some e]

theorem rewriteItem_of_not_mem {item : Option NodeId} (h : ∀ e ∈ todo, item ≠ some e) :
    f.rewriteItem list new todo item = [item] := by
  cases item with
  | none => rfl
  | some e => exact if_neg fun he => h e he rfl

/-- `g` is `f` after a pass over the items `todo` of `list`. -/
structure Rewritten (f : Forest) (list : NodeId) (new : NodeId → NodeId) (todo : List NodeId)
    (g : Forest) : Prop where
  shell : ∀ n, SameShell f g n
  items : g.items list = (f.items list).flatMap (f.rewriteItem list new todo)
  released : ∀ e ∈ todo, g.parent? e = none
  adopted : ∀ e ∈ todo, ∀ n, some n ∈ f.brought list (new e) → g.parent? n = some list
  drained : ∀ e ∈ todo, f.Splices list (new e) → g.items (new e) = []
  itemsOther : ∀ n, n ≠ list → (∀ e ∈ todo, ¬ (n = new e ∧ f.Splices list (new e))) →
    g.items n = f.items n
  parentOther : ∀ n, n ∉ todo → (∀ e ∈ todo, some n ∉ f.brought list (new e)) →
    g.parent? n = f.parent? n

theorem rewritten_nil (f : Forest) (list : NodeId) (new : NodeId → NodeId) :
    Rewritten f list new [] f := by
  refine
    { shell := fun n => rfl
      items := ?_
      released := nofun
      adopted := nofun
      drained := nofun
      itemsOther := fun n _ _ => rfl
      parentOther := fun n _ _ => rfl }
  have hsame : f.rewriteItem list new [] = fun item => [item] :=
    funext fun item => rewriteItem_of_not_mem nofun
  rw [hsame, List.flatMap_singleton']

section Cons

variable {h : Forest} {e : NodeId} {rest : List NodeId} {i : Nat}

/-- A pass over the rest leaves what the first request brought, and puts for every other item what
    it puts in a pass over all. -/
theorem Rewritten.items_cons (plan : RewritePlan f list new (e :: rest)) (hnot : e ∉ rest)
    (hpos : f.position? list e = some i) (hfirst : ItemReplaced f list i e (new e) g)
    (hrest : Rewritten g list new rest h) :
    h.items list = (f.items list).flatMap (f.rewriteItem list new (e :: rest)) := by
  have hat := getElem?_of_position? hpos
  obtain ⟨hbefore, hafter⟩ := not_mem_take_and_drop hat (plan.standsOnce e List.mem_cons_self)
  have hrewrite : ∀ item ≠ some e,
      g.rewriteItem list new rest item = f.rewriteItem list new (e :: rest) item := by
    intro item hitem
    cases item with
    | none => rfl
    | some e' =>
      have hne : e' ≠ e := fun heq => hitem (congrArg some heq)
      by_cases he' : e' ∈ rest
      · simp [rewriteItem, he', plan.brought_eq hnot hfirst he']
      · simp [rewriteItem, he', hne]
  rw [hrest.items, hfirst.items]
  refine flatMap_exchange hat ?_ ?_ ?_
  · have hkept : ∀ item ∈ f.brought list (new e), g.rewriteItem list new rest item = [item] := by
      intro item hitem
      refine rewriteItem_of_not_mem ?_
      rintro e' he' rfl
      exact plan.not_mem_brought List.mem_cons_self (List.mem_cons_of_mem e he') hitem
    rw [List.flatMap_congr hkept, List.flatMap_singleton']
    simp [rewriteItem]
  · intro item hitem
    exact hrewrite item fun heq => hbefore (heq ▸ hitem)
  · intro item hitem
    exact hrewrite item fun heq => hafter (heq ▸ hitem)

theorem Rewritten.released_cons (plan : RewritePlan f list new (e :: rest)) (hnot : e ∉ rest)
    (hpos : f.position? list e = some i) (hfirst : ItemReplaced f list i e (new e) g)
    (hrest : Rewritten g list new rest h) : ∀ e' ∈ e :: rest, h.parent? e' = none := by
  have hmem : e ∈ e :: rest := List.mem_cons_self
  have hout := plan.not_mem_brought hmem hmem
  intro e' he'
  rcases List.mem_cons.1 he' with rfl | he'
  · have hgone : some e' ∉ g.items list := by
      obtain ⟨hbefore, hafter⟩ :=
        not_mem_take_and_drop (getElem?_of_position? hpos) (plan.standsOnce e' hmem)
      rw [hfirst.items, exchange]
      simp [hbefore, hafter, hout]
    have hlink : f.parent? e' = f.self? list := (plan.child e' hmem).1.trans plan.selfKnown.symm
    have hcut : g.parent? e' = none := by
      rw [hfirst.displaced hout, if_pos ⟨hgone, hlink⟩]
    rw [hrest.parentOther e' hnot ?_, hcut]
    intro e'' he''
    rw [plan.brought_eq hnot hfirst he'']
    exact plan.not_mem_brought (List.mem_cons_of_mem e' he'') hmem
  · exact hrest.released e' he'

theorem Rewritten.adopted_cons (hheld : HeldAlive f) (plan : RewritePlan f list new (e :: rest))
    (hnot : e ∉ rest) (hfirst : ItemReplaced f list i e (new e) g)
    (hrest : Rewritten g list new rest h) :
    ∀ e' ∈ e :: rest, ∀ n, some n ∈ f.brought list (new e') → h.parent? n = some list := by
  have hmem : e ∈ e :: rest := List.mem_cons_self
  intro e' he' n hn
  rcases List.mem_cons.1 he' with rfl | he'
  · have hlive : f.isLive n := by
      rcases mem_brought.1 hn with ⟨-, hitem⟩ | ⟨-, rfl⟩
      · exact hheld (new e') n (holds_iff.2 (Or.inr hitem))
      · exact (plan.fresh e' hmem).1
    -- A later request may adopt the node once more, but the adopter is the same.
    by_cases hlater : ∃ e'' ∈ rest, some n ∈ g.brought list (new e'')
    · obtain ⟨e'', he'', hn''⟩ := hlater
      exact hrest.adopted e'' he'' n hn''
    · have hout : n ∉ rest := by
        intro hn'
        exact plan.not_mem_brought hmem (List.mem_cons_of_mem e' hn') hn
      rw [hrest.parentOther n hout fun e'' he'' hn'' => hlater ⟨e'', he'', hn''⟩,
        hfirst.adopted n hn hlive, plan.selfKnown]
  · rw [← plan.brought_eq hnot hfirst he'] at hn
    exact hrest.adopted e' he' n hn

theorem Rewritten.cons (hheld : HeldAlive f) (plan : RewritePlan f list new (e :: rest))
    (hnot : e ∉ rest) (hpos : f.position? list e = some i)
    (hfirst : ItemReplaced f list i e (new e) g) (hrest : Rewritten g list new rest h) :
    Rewritten f list new (e :: rest) h := by
  have hmem : e ∈ e :: rest := List.mem_cons_self
  refine
    { shell := fun n => (hfirst.shell n).trans (hrest.shell n)
      items := hrest.items_cons plan hnot hpos hfirst
      released := hrest.released_cons plan hnot hpos hfirst
      adopted := hrest.adopted_cons hheld plan hnot hfirst
      drained := ?_
      itemsOther := ?_
      parentOther := ?_ }
  · intro e' he' hsplices
    rcases List.mem_cons.1 he' with rfl | he'
    · rw [hrest.itemsOther (new e') (plan.fresh e' hmem).2.1 ?_, hfirst.drained hsplices]
      rintro e'' he'' ⟨heq, -⟩
      obtain rfl := plan.distinct e' hmem e'' (List.mem_cons_of_mem e' he'') heq
      exact hnot he''
    · exact hrest.drained e' he' ((hfirst.splices_iff (new e')).2 hsplices)
  · intro n hn hsource
    rw [hrest.itemsOther n hn ?_, hfirst.itemsOther n hn (hsource e hmem)]
    rintro e' he' ⟨heq, hsplices⟩
    exact hsource e' (List.mem_cons_of_mem e he') ⟨heq, (hfirst.splices_iff (new e')).1 hsplices⟩
  · intro n hn hout
    rw [hrest.parentOther n (fun hn' => hn (List.mem_cons_of_mem e hn')) ?_,
      hfirst.parentOther n (fun heq => hn (heq ▸ hmem)) (hout e hmem)]
    intro e' he'
    rw [plan.brought_eq hnot hfirst he']
    exact hout e' (List.mem_cons_of_mem e he')

end Cons

/-- Every request of a planned pass is granted, and the pass rewrites each item on its list. -/
theorem RewritePlan.rewritten (hf : Reachable f) (plan : RewritePlan f list new todo)
    (hnodup : todo.Nodup) :
    PermittedAll Succeeds f (todo.map fun e => .replace e (new e))
      ∧ Rewritten f list new todo (f.runAll (todo.map fun e => .replace e (new e))) := by
  induction todo generalizing f with
  | nil => exact ⟨trivial, rewritten_nil f list new⟩
  | cons e rest ih =>
    obtain ⟨hnot, hrest⟩ := List.nodup_cons.1 hnodup
    obtain ⟨i, hpos⟩ := plan.exists_position List.mem_cons_self
    obtain ⟨hsucceeds, hfirst⟩ := plan.request hf List.mem_cons_self hpos
    obtain ⟨hothers, hrewritten⟩ := ih (.run _ hf) (plan.after hnot hpos hfirst) hrest
    exact ⟨⟨hsucceeds, hothers⟩, hrewritten.cons hf.heldAlive plan hnot hpos hfirst⟩

/-! ## A pass over all items -/

theorem count_filterMap_id (items : List (Option NodeId)) (n : NodeId) :
    (items.filterMap id).count n = items.count (some n) := by
  rw [List.count_filterMap]
  rfl

theorem RewritePlan.nodup (plan : RewritePlan f list new todo)
    (htodo : todo.Perm ((f.items list).filterMap id)) : todo.Nodup := by
  rw [List.nodup_iff_count]
  intro e
  by_cases he : e ∈ todo
  · have hone := plan.standsOnce e he
    rw [← count_filterMap_id, ← htodo.count_eq] at hone
    omega
  · rw [List.count_eq_zero.2 he]
    omega

/-- In a pass over all items nothing but a placeholder stays. -/
theorem flatMap_rewriteItem (htodo : todo.Perm ((f.items list).filterMap id)) :
    (f.items list).flatMap (f.rewriteItem list new todo)
      = (f.items list).flatMap fun item => item.elim [none] fun e => f.brought list (new e) := by
  refine List.flatMap_congr fun item hitem => ?_
  cases item with
  | none => rfl
  | some e =>
    have he : e ∈ todo := htodo.mem_iff.2 (mem_filterMap_id.2 hitem)
    simp [rewriteItem, he]

/-- Nobody is the parent of a replacement before the pass. -/
theorem RewritePlan.parent?_new (hlinks : LinksAccurate f) (plan : RewritePlan f list new todo)
    {e : NodeId} (he : e ∈ todo) : f.parent? (new e) = none := by
  rw [Option.eq_none_iff_forall_ne_some]
  intro p hp
  exact (plan.fresh e he).2.2 (isHeld_of_holds (hlinks (new e) p hp).2)

/-- **A pass over a list is a `flatMap`, in any order.** Every request is granted. In the end each
    item has given way to what its replacement brings, and the placeholders stand where they stood;
    no item has a parent any more, all that was brought has the list for parent, and a replacement
    that was taken apart is left without items and without parent. No other place and no other link
    has changed, and no node has been freed. -/
theorem Reachable.rewrite_pass (hf : Reachable f) {order : List NodeId}
    (plan : RewritePlan f list new order)
    (horder : order.Perm ((f.items list).filterMap id)) :
    PermittedAll Succeeds f (order.map fun e => .replace e (new e))
      ∧ ∃ g, f.runAll (order.map fun e => .replace e (new e)) = g
        ∧ g.items list
          = ((f.items list).flatMap fun item => item.elim [none] fun e => f.brought list (new e))
        ∧ (∀ e ∈ order, g.parent? e = none)
        ∧ (∀ e ∈ order, ∀ n, some n ∈ f.brought list (new e) → g.parent? n = some list)
        ∧ (∀ e ∈ order, f.Splices list (new e) →
          g.items (new e) = [] ∧ g.parent? (new e) = none)
        ∧ (∀ n, g.slots n = f.slots n)
        ∧ (∀ n, n ≠ list → (∀ e ∈ order, ¬ (n = new e ∧ f.Splices list (new e))) →
          g.items n = f.items n)
        ∧ (∀ n, n ∉ order → (∀ e ∈ order, some n ∉ f.brought list (new e)) →
          g.parent? n = f.parent? n)
        ∧ ∀ n, g.isLive n = f.isLive n := by
  obtain ⟨hsucceed, h⟩ := plan.rewritten hf (plan.nodup horder)
  refine ⟨hsucceed, _, rfl, ?_, h.released, h.adopted, ?_, fun n => (h.shell n).slots,
    h.itemsOther, h.parentOther, fun n => (h.shell n).isLive⟩
  · rw [h.items, flatMap_rewriteItem horder]
  · intro e he hsplices
    refine ⟨h.drained e he hsplices, ?_⟩
    rw [h.parentOther (new e) ?_ ?_, plan.parent?_new hf.linksAccurate he]
    · intro hmem
      exact (plan.fresh e he).2.2 (isHeld_of_holds (plan.holds hmem))
    · intro e' he' hbrought
      obtain ⟨rfl, hnot⟩ := plan.of_new_mem_brought he' he hbrought
      exact hnot hsplices

/-- A block of two identifiers with a placeholder between them, a block that holds an identifier
    twice, and an identifier that stands nowhere. -/
def blockToRewrite : List Edit :=
  let block := Catalogue.spec Catalogue.block "" true true
  let identifier := Catalogue.spec Catalogue.identifier "x" false true
  [.create block, .create identifier, .create identifier, .push 0 (some 1), .push 0 none,
    .push 0 (some 2), .create block, .create identifier, .push 3 (some 4), .push 3 (some 4),
    .create identifier]

/-- The second identifier is replaced first, the first one gives way to two items. -/
theorem Reachable.rewrite_pass_blockToRewrite :
    ((empty.runAll blockToRewrite).runAll [.replace 2 5, .replace 1 3]).items 0
        = [some 4, some 4, none, some 5]
      ∧ ((empty.runAll blockToRewrite).runAll [.replace 2 5, .replace 1 3]).parent? 4 = some 0 := by
  have hsole : ∀ e ∈ [2, 1], (empty.runAll blockToRewrite).Splices 0 (if e = 1 then 3 else 5) →
      ∀ n ∈ ((empty.runAll blockToRewrite).items (if e = 1 then 3 else 5)).filterMap id,
        (empty.runAll blockToRewrite).HeldOnlyBy (if e = 1 then 3 else 5) n := by
    decide +kernel
  have plan : RewritePlan (empty.runAll blockToRewrite) 0 (fun e => if e = 1 then 3 else 5)
      [2, 1] :=
    { selfKnown := by decide +kernel
      standsOnce := by decide +kernel
      child := by decide +kernel
      retained := by decide +kernel
      fresh := by decide +kernel
      distinct := by decide +kernel
      soleHolder := fun e he hsplices n hn => hsole e he hsplices n (mem_filterMap_id.2 hn) }
  obtain ⟨-, g, hg, hitems, -, hadopted, -⟩ :=
    Reachable.rewrite_pass (Reachable.start.runAll blockToRewrite) plan (by decide +kernel)
  have hrun : (empty.runAll blockToRewrite).runAll [.replace 2 5, .replace 1 3] = g := hg
  rw [hrun]
  exact ⟨hitems.trans (by decide +kernel), hadopted 1 (by decide) 4 (by decide +kernel)⟩

end Forest

end NodeForest
