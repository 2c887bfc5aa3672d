import NodeForest.Proofs.Outcomes
import NodeForest.Proofs.Runs

set_option autoImplicit false

/-! # Every edit is a sequence of moves

A `Move` creates a node, counts callers, rewires one owner or frees a lost node. `moves_run` says
that every edit, with the reclaiming after it, is a sequence of moves whose adoptions are those of
the edit. A law that every move keeps is thus a law of every run. -/

namespace NodeForest.Forest

/-- An elementary step, with the adoptions it makes. Nodes are created as `allowed` only. -/
inductive Move (allowed : NodeSpec → Prop) : Forest → List Adoption → Forest → Prop
  | create (f : Forest) (spec : NodeSpec) : allowed spec →
      Move allowed f [] (f.insert (Node.fresh spec)).2
  | recount (f : Forest) (n : NodeId) (change : Nat → Nat) :
      Move allowed f [] (f.countCallers n change)
  | rewire {f stored : Forest} {owner : NodeId} {released adopted : List NodeId}
      (source? : Option NodeId) : Rewiring f stored owner released adopted →
      (∀ n ∈ adopted, f.isLive n ∨ ∃ p, f.holds p n) →
      Move allowed f (adopted.map fun n => ⟨owner, n, source?⟩)
        (stored.handOver owner released adopted)
  | free {f : Forest} (n : NodeId) : f.isLost n → Move allowed f [] (f.free n)

/-- Any number of moves, with the adoptions they make in order. -/
inductive Moves (allowed : NodeSpec → Prop) : Forest → List Adoption → Forest → Prop
  | refl (f : Forest) : Moves allowed f [] f
  | step {f g h : Forest} {before after : List Adoption} : Moves allowed f before g →
      Move allowed g after h → Moves allowed f (before ++ after) h

variable {allowed : NodeSpec → Prop} {f g h : Forest}

theorem Move.moves {adoptions : List Adoption} (m : Move allowed f adoptions g) :
    Moves allowed f adoptions g :=
  .step (.refl f) m

theorem Moves.trans {before after : List Adoption} (m : Moves allowed f before g)
    (m' : Moves allowed g after h) : Moves allowed f (before ++ after) h := by
  induction m' with
  | refl => rwa [List.append_nil]
  | step _ last ih => exact List.append_assoc .. ▸ .step ih last

theorem HandedOver.move {owner : NodeId} {adopted : List NodeId}
    (hg : HandedOver f g owner adopted) (horigin : ∀ n ∈ adopted, f.isLive n ∨ ∃ p, f.holds p n)
    (source? : Option NodeId) :
    Move allowed f (adopted.map fun n => ⟨owner, n, source?⟩) g := by
  obtain ⟨stored, released, r, rfl⟩ := hg
  exact .rewire source? r horigin

theorem Replaced.move {owner new : NodeId} {r : Replacement} (hg : Replaced f owner new r g)
    (hnew : f.isLive new) : Move allowed f (f.replacementAdoptions owner new r) g := by
  cases hg with
  | single _ hg => exact hg.move (fun n hn => Or.inl (List.mem_singleton.1 hn ▸ hnew)) none
  | spliced _ hg =>
    exact hg.move
      (fun n hn => Or.inr ⟨new, holds_iff.2 (Or.inr (mem_filterMap_id.1 hn))⟩) (some new)

/-- What every move keeps, moves keep. -/
theorem Moves.preserve {inv : Forest → Prop}
    (hmove : ∀ {f g : Forest} {adoptions}, Move allowed f adoptions g → inv f → inv g)
    {adoptions : List Adoption} (m : Moves allowed f adoptions g) (hf : inv f) : inv g := by
  induction m with
  | refl => exact hf
  | step _ last ih => exact hmove last ih

/-! ## Counting callers -/

theorem sameContents_countCallers (f : Forest) (n : NodeId) (change : Nat → Nat) (m : NodeId) :
    SameContents f (f.countCallers n change) m :=
  sameContents_modify f n (fun node => { node with callers := change node.callers }) (fun _ => rfl) m

theorem parent?_countCallers (f : Forest) (n : NodeId) (change : Nat → Nat) (m : NodeId) :
    (f.countCallers n change).parent? m = f.parent? m :=
  parent?_modify f n (fun node => { node with callers := change node.callers }) (fun _ => rfl) m

/-! ## Survivors -/

/-- Identities are not used again: a node that existed before a move and is alive after it was
    alive before, and is the same. -/
theorem Move.survivor {adoptions : List Adoption} (m : Move allowed f adoptions g) {n : NodeId}
    (hn : n < f.nodes.size) (hlive : g.isLive n) : f.isLive n ∧ g.self? n = f.self? n := by
  cases m with
  | create spec _ =>
    have hsame := sameContents_insert f (Node.fresh spec) (Nat.ne_of_lt hn)
    exact ⟨hsame.isLive ▸ hlive, hsame.self?⟩
  | recount m change =>
    have hsame := sameContents_countCallers f m change n
    exact ⟨hsame.isLive ▸ hlive, hsame.self?⟩
  | rewire _ r _ =>
    rw [r.isLive_handOver] at hlive
    exact ⟨hlive, r.self?_handOver n⟩
  | free lost _ =>
    have hsame := sameContents_free f (ne_of_isLive_free hlive)
    exact ⟨hsame.isLive ▸ hlive, hsame.self?⟩

theorem Move.size_le {adoptions : List Adoption} (m : Move allowed f adoptions g) :
    f.nodes.size ≤ g.nodes.size := by
  cases m with
  | create _ _ => simp [insert]
  | recount _ _ => exact Nat.le_of_eq (size_modify ..).symm
  | rewire _ r _ => exact Nat.le_of_eq (r.size.symm.trans (size_handOver ..).symm)
  | free _ _ => exact Nat.le_of_eq (size_free ..).symm

theorem Moves.size_le {adoptions : List Adoption} (m : Moves allowed f adoptions g) :
    f.nodes.size ≤ g.nodes.size := by
  induction m with
  | refl => exact Nat.le_refl _
  | step _ last ih => exact Nat.le_trans ih last.size_le

theorem Moves.survivor {adoptions : List Adoption} (m : Moves allowed f adoptions g) {n : NodeId}
    (hn : n < f.nodes.size) (hlive : g.isLive n) : f.isLive n ∧ g.self? n = f.self? n := by
  induction m with
  | refl => exact ⟨hlive, rfl⟩
  | step before last ih =>
    obtain ⟨hmiddle, hself⟩ := last.survivor (Nat.lt_of_lt_of_le hn before.size_le) hlive
    exact ⟨(ih hmiddle).1, hself.trans (ih hmiddle).2⟩

/-! ## Pushing several nodes -/

theorem isList_push {list : NodeId} (hlist : f.isList list) (child : Option NodeId) (n : NodeId) :
    (f.push list child).isList n = f.isList n := by
  rw [push_eq, (sameContents_handOver ..).isList, isList_setItems hlist]

theorem isLive_push {list : NodeId} (child : Option NodeId) (n : NodeId) :
    (f.push list child).isLive n = f.isLive n := by
  rw [push_eq, (sameContents_handOver ..).isLive, setItems, isLive_modify]

theorem moves_foldl_push {list : NodeId} (hlist : f.isList list) (nodes : List NodeId)
    (hlive : ∀ n ∈ nodes, f.isLive n) :
    Moves allowed f (nodes.map fun n => ⟨list, n, none⟩)
      (nodes.foldl (fun g child => g.push list (some child)) f) := by
  induction nodes generalizing f with
  | nil => exact .refl f
  | cons n rest ih =>
    have hfirst : Move allowed f [⟨list, n, none⟩] (f.push list (some n)) :=
      (handedOver_push hlist (some n)).move
        (fun m hm => Or.inl (hlive m (List.mem_cons.2 (Or.inl (List.mem_singleton.1 hm))))) none
    have hrest := ih (f := f.push list (some n)) ((isList_push hlist _ _).trans hlist)
      fun m hm => (isLive_push _ _).trans (hlive m (List.mem_cons_of_mem n hm))
    exact hfirst.moves.trans hrest

/-! ## Performing -/

theorem isLive_insert {n : NodeId} (h : f.isLive n) (node : Node) :
    (f.insert node).2.isLive n := by
  have hne : n ≠ f.nodes.size := by
    rintro rfl
    rw [isLive, node?_size] at h
    cases h
  rwa [(sameContents_insert f node hne).isLive]

theorem isList_insert_fresh {spec : NodeSpec} (h : spec.isList) :
    (f.insert (Node.fresh spec)).2.isList f.nodes.size := by
  rw [isList, node?_insert, if_pos rfl]
  simp [Node.fresh, h]

/-- An edit that is carried out is a sequence of moves. -/
theorem moves_carryOut {e : Edit} (hlive : ∀ n ∈ e.operands, f.isLive n)
    (hlist : ∀ n, e.list? = some n → f.isList n)
    (hspec : ∀ spec, e.created? = some spec → allowed spec)
    (hperform : f.perform e = f.carryOut e) :
    Moves allowed f (f.adoptions e) (f.carryOut e).forest := by
  unfold adoptions
  rw [hperform]
  cases e with
  | create spec => exact (Move.create f spec (hspec spec rfl)).moves
  | gather spec nodes =>
    -- Creating the list makes no adoption; each push makes one.
    have hcreate := (Move.create f _ (hspec _ rfl)).moves
    exact hcreate.trans (moves_foldl_push (isList_insert_fresh rfl) nodes
      fun n hn => isLive_insert (hlive n hn) _)
  | retain n => exact (Move.recount f n (· + 1)).moves
  | letGo n => exact (Move.recount f n (· - 1)).moves
  | fillSlot owner i value =>
    rw [carryOut]
    by_cases hi : i < (f.slots owner).length
    · rw [if_pos hi]
      exact ((handedOver_fillSlot hi value).move
        (fun n hn => Or.inl (hlive n (List.mem_cons_of_mem owner hn))) none).moves
    · rw [if_neg hi]
      exact .refl f
  | setChild owner name value =>
    rw [carryOut, setChild]
    cases hindex : Slot.index? (f.slots owner) name with
    | none => exact .refl f
    | some i =>
      have hi := (List.findIdx?_eq_some_iff_getElem.1 hindex).1
      exact ((handedOver_fillSlot hi value).move
        (fun n hn => Or.inl (hlive n (List.mem_cons_of_mem owner hn))) none).moves
  | push list child =>
    exact ((handedOver_push (hlist list rfl) child).move
      (fun n hn => Or.inl (hlive n (List.mem_cons_of_mem list hn))) none).moves
  | removeItem list child =>
    rw [carryOut, Outcome.ofTree]
    rcases removeItem_cases f list child with ⟨hresult, hforest⟩ | ⟨hresult, hforest⟩
    · rw [hresult, hforest]
      exact .refl f
    · rw [hresult]
      exact (hforest.move (fun n hn => absurd hn List.not_mem_nil) none).moves
  | replaceChild owner old new =>
    rw [carryOut, Outcome.ofTree]
    rcases replaceChild_cases f owner old new with ⟨e, hresult, hforest⟩ | ⟨-, r, hresult, hr⟩
    · rw [hresult, hforest]
      exact .refl f
    · rw [hresult]
      exact (hr.move (hlive new (by simp [Edit.operands]))).moves
  | replace n new =>
    rw [carryOut, Outcome.ofTree]
    rcases replace_cases f n new with ⟨e, hresult, hforest⟩ | ⟨owner, hparent, -, r, hresult, hr⟩
    · rw [hresult, hforest]
      exact .refl f
    · rw [hresult]
      have hadoptions : f.adoptionsOf (.replace n new) (.replaced r)
          = f.replacementAdoptions owner new r := by
        rw [adoptionsOf, hparent]
        rfl
      show Moves allowed f (f.adoptionsOf (.replace n new) (.replaced r)) _
      rw [hadoptions]
      exact (hr.move (hlive new (by simp [Edit.operands]))).moves

/-- An edit is carried out, or refused with the forest as it was. -/
theorem perform_cases (f : Forest) (e : Edit) :
    (∃ refusal, f.perform e = ⟨.error refusal, [], f⟩)
      ∨ (∀ n ∈ e.operands, f.isLive n) ∧ (∀ n, e.list? = some n → f.isList n)
        ∧ f.perform e = f.carryOut e := by
  unfold perform
  by_cases hlive : e.operands.all f.isLive
  · by_cases hlist : e.list?.all f.isList
    · rw [if_pos hlive, if_pos hlist]
      refine Or.inr ⟨List.all_eq_true.1 hlive, fun n hn => ?_, rfl⟩
      rw [hn] at hlist
      exact hlist
    · rw [if_pos hlive, if_neg hlist]
      exact Or.inl ⟨_, rfl⟩
  · rw [if_neg hlive]
    exact Or.inl ⟨_, rfl⟩

/-- An edit that succeeds is carried out. -/
theorem perform_eq_of_result_eq_ok {e : Edit} {answer : Answer}
    (hok : (f.perform e).result = .ok answer) : f.perform e = f.carryOut e := by
  rcases perform_cases f e with ⟨refusal, hperform⟩ | ⟨-, -, hperform⟩
  · rw [hperform] at hok
    cases hok
  · exact hperform

theorem moves_perform (f : Forest) {e : Edit}
    (hspec : ∀ spec, e.created? = some spec → allowed spec) :
    Moves allowed f (f.adoptions e) (f.perform e).forest := by
  rcases perform_cases f e with ⟨refusal, hperform⟩ | ⟨hlive, hlist, hperform⟩
  · rw [adoptions, hperform]
    exact .refl f
  · have m := moves_carryOut hlive hlist hspec hperform
    rwa [← hperform] at m

/-! ## Asking for a replacement -/

/-- The edit asks `owner`, by name or as the parent of `old`, to replace `old` by `new`. -/
def AsksToReplace (f : Forest) (e : Edit) (owner old new : NodeId) : Prop :=
  e = .replaceChild owner old new ∨ e = .replace old new ∧ f.parent? old = some owner

theorem AsksToReplace.replaced {e : Edit} {owner old new : NodeId} {answer : Answer}
    (hask : f.AsksToReplace e owner old new) (hok : (f.perform e).result = .ok answer) :
    new ≠ owner ∧ ∃ r, answer = .replaced r ∧ Replaced f owner new r (f.perform e).forest := by
  have hperform := perform_eq_of_result_eq_ok hok
  rw [hperform] at hok ⊢
  rcases hask with rfl | ⟨rfl, hparent⟩
  · rw [carryOut, Outcome.ofTree] at hok ⊢
    rcases replaceChild_cases f owner old new with ⟨e, hresult, -⟩ | ⟨hne, r, hresult, hr⟩
    · simp [hresult] at hok
    · simp only [hresult, Except.ok.injEq] at hok
      exact ⟨hne, r, hok.symm, hr⟩
  · rw [carryOut, Outcome.ofTree] at hok ⊢
    rcases replace_cases f old new with ⟨e, hresult, -⟩ | ⟨p, hp, hne, r, hresult, hr⟩
    · simp [hresult] at hok
    · obtain rfl := Option.some.inj (hp.symm.trans hparent)
      simp only [hresult, Except.ok.injEq] at hok
      exact ⟨hne, r, hok.symm, hr⟩

/-! ## Reclaiming -/

theorem isLost_of_firstLost? {n : NodeId} (h : f.firstLost? = some n) : f.isLost n :=
  List.find?_some h

theorem moves_reclaim (f : Forest) : Moves allowed f [] f.reclaim := by
  fun_induction reclaim f with
  | case1 f _ => exact .refl f
  | case2 f n hn _ ih => exact (Move.free n (isLost_of_firstLost? hn)).moves.trans ih

theorem size_reclaim (f : Forest) : f.reclaim.nodes.size = f.nodes.size := by
  fun_induction reclaim f with
  | case1 f _ => rfl
  | case2 f n _ _ ih => exact ih.trans (size_free f n)

theorem isLive_of_isLive_reclaim {n : NodeId} (h : f.reclaim.isLive n) : f.isLive n := by
  have m : Moves (fun _ => True) f [] f.reclaim := moves_reclaim f
  exact (m.survivor (size_reclaim f ▸ lt_size_of_isLive h) h).1

/-- What survives is the same as before. -/
theorem sameContents_reclaim {n : NodeId} (h : f.reclaim.isLive n) :
    SameContents f f.reclaim n := by
  fun_induction reclaim f with
  | case1 f _ => rfl
  | case2 f lost _ _ ih =>
    have hn : n ≠ lost := ne_of_isLive_free (isLive_of_isLive_reclaim h)
    exact (ih h).trans (sameContents_free f hn)

theorem moves_run (f : Forest) {e : Edit}
    (hspec : ∀ spec, e.created? = some spec → allowed spec) :
    Moves allowed f (f.adoptions e) (f.run e).forest := by
  have m := (moves_perform f hspec).trans (moves_reclaim (f.perform e).forest)
  rwa [List.append_nil] at m

/-- The moves of an edit, where it does not matter what may be created. -/
theorem moves_run_any (f : Forest) (e : Edit) :
    Moves (fun _ => True) f (f.adoptions e) (f.run e).forest :=
  moves_run f fun _ _ => trivial

/-- What holds of the empty forest and is kept by the moves of permitted edits holds after every
    run. -/
theorem Run.invariant {permitted : Forest → Edit → Prop} {inv : Forest → Prop}
    {history : List Adoption} (hempty : inv empty)
    (hmove : ∀ {f g : Forest} {adoptions}, Move allowed f adoptions g → inv f → inv g)
    (hspec : ∀ f e, permitted f e → ∀ spec, e.created? = some spec → allowed spec)
    (hf : Run permitted f history) : inv f := by
  induction hf with
  | start => exact hempty
  | edit e _ he ih => exact (moves_run _ (hspec _ e he)).preserve hmove ih

/-- What holds of the empty forest and is kept by every move holds of every reachable forest. -/
theorem Reachable.invariant {inv : Forest → Prop} (hempty : inv empty)
    (hmove : ∀ {f g : Forest} {adoptions}, Move (fun _ => True) f adoptions g → inv f → inv g)
    (hf : Reachable f) : inv f := by
  induction hf with
  | start => exact hempty
  | run e _ ih => exact (moves_run_any _ e).preserve hmove ih

end NodeForest.Forest
