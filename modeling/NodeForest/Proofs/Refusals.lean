import NodeForest.Catalogue
import NodeForest.Proofs.ParentAccuracy
import NodeForest.Proofs.Settled

set_option autoImplicit false

/-! # Operations that fail

An operation makes its checks in a fixed order, and all of them before it changes anything.
`Outcome.GuardedBy` states which checks these are and which of two errors wins. An operation that
fails reports that it was entered and nothing else; one that replaces or removes a child reports one
change if it succeeds. -/

namespace NodeForest

/-! ## Checks in order -/

/-- The operation makes checks in order, each given by when it fails and with which error. The
    first check that fails decides the error, and without one the operation succeeds. -/
def Outcome.GuardedBy {Error Answer : Type} (o : Outcome Error Answer) :
    (checks : List (Prop × Error)) → Prop
  | [] => ∃ answer, o.result = .ok answer
  | (fails, e) :: rest => (o.result = .error e ↔ fails) ∧ (¬ fails → o.GuardedBy rest)

section GuardedBy

variable {Error Answer : Type} {o : Outcome Error Answer} {fails : Prop} {e : Error}
  {rest : List (Prop × Error)}

theorem Outcome.GuardedBy.of_fails (hfails : fails) (h : o.result = .error e) :
    o.GuardedBy ((fails, e) :: rest) := by
  refine ⟨?_, fun hnot => absurd hfails hnot⟩
  exact ⟨fun _ => hfails, fun _ => h⟩

theorem Outcome.GuardedBy.of_passes (hpasses : ¬ fails) (h : o.result ≠ .error e)
    (hrest : o.GuardedBy rest) : o.GuardedBy ((fails, e) :: rest) := by
  refine ⟨?_, fun _ => hrest⟩
  exact ⟨fun hresult => absurd hresult h, fun hfails => absurd hfails hpasses⟩

theorem Outcome.GuardedBy.of_ok {answer : Answer} (h : o.result = .ok answer) :
    o.GuardedBy [] :=
  ⟨answer, h⟩

/-- Every error is that of a check that fails. -/
theorem Outcome.GuardedBy.exists_of_error {checks : List (Prop × Error)} (h : o.GuardedBy checks)
    (he : o.result = .error e) : ∃ check ∈ checks, check.1 ∧ check.2 = e := by
  induction checks with
  | nil =>
    obtain ⟨answer, hok⟩ := h
    rw [he] at hok
    cases hok
  | cons check rest ih =>
    obtain ⟨hcheck, hrest⟩ := h
    by_cases hfails : check.1
    · have herror := hcheck.2 hfails
      rw [he] at herror
      exact ⟨check, List.mem_cons_self, hfails, (Except.error.inj herror).symm⟩
    · obtain ⟨check', hmem, hcheck'⟩ := ih (hrest hfails)
      exact ⟨check', List.mem_cons_of_mem check hmem, hcheck'⟩

theorem Outcome.GuardedBy.eq_or_eq {fails' : Prop} {e₁ e₂ : Error}
    (h : o.GuardedBy [(fails, e₁), (fails', e₂)]) (he : o.result = .error e) : e = e₁ ∨ e = e₂ := by
  obtain ⟨check, hmem, -, rfl⟩ := h.exists_of_error he
  simp only [List.mem_cons, List.not_mem_nil, or_false] at hmem
  rcases hmem with rfl | rfl
  · exact Or.inl rfl
  · exact Or.inr rfl

end GuardedBy

theorem Outcome.result_ofTree_eq_error {α : Type} {o : Outcome TreeError α} {answer : α → Answer}
    {e : TreeError} : (o.ofTree answer).result = .error (.tree e) ↔ o.result = .error e := by
  unfold Outcome.ofTree
  cases o.result with
  | ok a => simp
  | error e' => simp

theorem Outcome.GuardedBy.ofTree {α : Type} {o : Outcome TreeError α}
    {checks : List (Prop × TreeError)} (h : o.GuardedBy checks) (answer : α → Answer) :
    (o.ofTree answer).GuardedBy (checks.map fun check => (check.1, Refusal.tree check.2)) := by
  induction checks with
  | nil =>
    obtain ⟨a, hok⟩ := h
    exact ⟨answer a, by rw [Outcome.ofTree, hok]⟩
  | cons check rest ih =>
    obtain ⟨hcheck, hrest⟩ := h
    exact ⟨Outcome.result_ofTree_eq_error.trans hcheck, fun hnot => ih (hrest hnot)⟩

/-! ## Nothing on failure -/

/-- If the operation fails, the forest is `f` as before, and the journal reports no change. -/
def Outcome.Atomic {Error Answer : Type} (o : Outcome Error Answer) (f : Forest) : Prop :=
  ∀ e, o.result = .error e → o.forest = f ∧ ∀ entry ∈ o.journal, ¬ entry.isEvent

/-- An operation on `f` that has either failed without a change or succeeded with one change. -/
inductive Outcome.AllOrNothing {Error Answer : Type} (f : Forest) : Outcome Error Answer → Prop
  | failed (e : Error) (spans : List Span) : AllOrNothing f ⟨.error e, spans.map .span, f⟩
  | done (answer : Answer) (spans : List Span) (event : Event) (g : Forest) :
      AllOrNothing f ⟨.ok answer, spans.map .span ++ [.event event], g⟩

theorem not_isEvent_of_mem_spans {spans : List Span} {entry : JournalEntry}
    (h : entry ∈ spans.map .span) : ¬ entry.isEvent := by
  obtain ⟨span, -, rfl⟩ := List.mem_map.1 h
  exact Bool.false_ne_true

theorem Outcome.AllOrNothing.atomic {Error Answer : Type} {f : Forest}
    {o : Outcome Error Answer} (h : o.AllOrNothing f) : o.Atomic f := by
  intro e he
  cases h with
  | failed e' spans => exact ⟨rfl, fun entry hentry => not_isEvent_of_mem_spans hentry⟩
  | done answer spans event g => cases he

theorem Outcome.AllOrNothing.countP_isEvent {Error Answer : Type} {f : Forest}
    {o : Outcome Error Answer} (h : o.AllOrNothing f) {answer : Answer}
    (hok : o.result = .ok answer) : o.journal.countP (·.isEvent) = 1 := by
  cases h with
  | failed e spans => cases hok
  | done answer' spans event g =>
    have hspans : (spans.map JournalEntry.span).countP (·.isEvent) = 0 :=
      List.countP_eq_zero.2 fun entry hentry => not_isEvent_of_mem_spans hentry
    rw [List.countP_append, hspans]
    rfl

theorem Outcome.Atomic.ofTree {α : Type} {o : Outcome TreeError α} {f : Forest}
    (h : o.Atomic f) (answer : α → Answer) : (o.ofTree answer).Atomic f := by
  intro refusal hrefusal
  unfold Outcome.ofTree at hrefusal ⊢
  cases hresult : o.result with
  | ok a => simp [hresult] at hrefusal
  | error e => exact h e hresult

theorem Outcome.AllOrNothing.ofTree {α : Type} {o : Outcome TreeError α} {f : Forest}
    (h : o.AllOrNothing f) (answer : α → Answer) : (o.ofTree answer).AllOrNothing f := by
  cases h with
  | failed e spans => exact .failed (Refusal.tree e) spans
  | done a spans event g => exact .done (answer a) spans event g

namespace Forest

variable (f : Forest)

/-! ## Where a child is looked for -/

theorem position?_eq_none {f : Forest} {list child : NodeId} :
    f.position? list child = none ↔ some child ∉ f.items list :=
  List.idxOf?_eq_none_iff

theorem findIdx?_occupant_eq_none {f : Forest} {owner old : NodeId} :
    (f.slots owner).findIdx? (·.occupant == some old) = none ↔
      ∀ s ∈ f.slots owner, s.occupant ≠ some old := by
  simp [List.findIdx?_eq_none_iff]

theorem index?_eq_none {slots : List (Slot NodeId)} {name : String} :
    Slot.index? slots name = none ↔ ∀ s ∈ slots, s.name ≠ name := by
  simp [Slot.index?, List.findIdx?_eq_none_iff]

/-! ## The checks of each operation -/

theorem guardedBy_replaceInList (list old new : NodeId) :
    (f.replaceInList list old new).GuardedBy
      [(some old ∉ f.items list, f.notAChild list old), (new = list, f.selfReference list)] := by
  unfold replaceInList
  cases hpos : f.position? list old with
  | none => exact .of_fails (position?_eq_none.1 hpos) rfl
  | some i =>
    have hfound : ¬ some old ∉ f.items list := not_not_intro (mem_items_of_position? hpos)
    by_cases hself : new = list
    · simp only [if_pos hself]
      exact .of_passes hfound (by simp [selfReference, notAChild]) (.of_fails hself rfl)
    · simp only [if_neg hself]
      cases f.spliceItems? list new with
      | none => exact .of_passes hfound nofun (.of_passes hself nofun (.of_ok rfl))
      | some moved => exact .of_passes hfound nofun (.of_passes hself nofun (.of_ok rfl))

theorem guardedBy_replaceInSlot (owner old new : NodeId) :
    (f.replaceInSlot owner old new).GuardedBy
      [(∀ s ∈ f.slots owner, s.occupant ≠ some old, f.notAChild owner old),
        (new = owner, f.selfReference owner)] := by
  unfold replaceInSlot
  cases hpos : (f.slots owner).findIdx? (·.occupant == some old) with
  | none => exact .of_fails (findIdx?_occupant_eq_none.1 hpos) rfl
  | some i =>
    have hfound : ¬ ∀ s ∈ f.slots owner, s.occupant ≠ some old := by
      rw [← findIdx?_occupant_eq_none, hpos]
      simp
    by_cases hself : new = owner
    · simp only [if_pos hself]
      exact .of_passes hfound (by simp [selfReference, notAChild]) (.of_fails hself rfl)
    · simp only [if_neg hself]
      exact .of_passes hfound nofun (.of_passes hself nofun (.of_ok rfl))

theorem guardedBy_removeItem (list child : NodeId) :
    (f.removeItem list child).GuardedBy [(some child ∉ f.items list, f.notAChild list child)] := by
  unfold removeItem
  cases hpos : f.position? list child with
  | none => exact .of_fails (position?_eq_none.1 hpos) rfl
  | some i =>
    have hfound : ¬ some child ∉ f.items list := not_not_intro (mem_items_of_position? hpos)
    exact .of_passes hfound nofun (.of_ok rfl)

theorem guardedBy_setChild (n : NodeId) (name : String) (value : Option NodeId) :
    (f.setChild n name value).GuardedBy
      [(∀ s ∈ f.slots n, s.name ≠ name, .unknownSlot (f.kindName n) name)] := by
  unfold setChild
  cases hindex : Slot.index? (f.slots n) name with
  | none => exact .of_fails (index?_eq_none.1 hindex) rfl
  | some i =>
    have hfound : ¬ ∀ s ∈ f.slots n, s.name ≠ name := by
      rw [← index?_eq_none, hindex]
      simp
    exact .of_passes hfound nofun (.of_ok rfl)

/-! ## Replacement by the parent -/

/-- A node that has a parent and knows itself is replaced by its parent. -/
theorem replace_eq_replaceChild {f : Forest} {n p : NodeId} (hparent : f.parent? n = some p)
    (hself : f.self? n = some n) (new : NodeId) :
    f.replace n new = { f.replaceChild p n new with
      journal := .span (.replaceByParent (f.kindName n)) :: (f.replaceChild p n new).journal } := by
  unfold replace
  rw [hparent, hself]

theorem replace_eq_noParent {f : Forest} {n : NodeId}
    (h : f.parent? n = none ∨ f.self? n = none) (new : NodeId) :
    f.replace n new = ⟨.error (.noParent (f.kindName n)),
      [.span (.replaceByParent (f.kindName n))], f⟩ := by
  unfold replace
  rcases h with h | h
  · rw [h]
  · rw [h]
    cases f.parent? n <;> rfl

/-- A node has a parent to ask, or it is refused. -/
theorem asks_or_not (n : NodeId) :
    (f.parent? n = none ∨ f.self? n = none)
      ∨ ∃ p, f.parent? n = some p ∧ f.self? n = some n := by
  cases hparent : f.parent? n with
  | none => exact Or.inl (Or.inl rfl)
  | some p =>
    cases hself : f.self? n with
    | none => exact Or.inl (Or.inr rfl)
    | some m =>
      obtain rfl := self?_eq_some hself
      exact Or.inr ⟨p, rfl, rfl⟩

/-- An owner that is asked to replace a child never answers that it has no parent. -/
theorem replaceChild_ne_noParent (owner old new : NodeId) (kind : String) :
    (f.replaceChild owner old new).result ≠ .error (.noParent kind) := by
  intro he
  have h : .noParent kind = f.notAChild owner old ∨ .noParent kind = f.selfReference owner := by
    unfold replaceChild at he
    split at he
    · exact (f.guardedBy_replaceInList owner old new).eq_or_eq he
    · exact (f.guardedBy_replaceInSlot owner old new).eq_or_eq he
  rcases h with h | h <;> cases h

theorem replace_eq_noParent_iff (n new : NodeId) :
    (f.replace n new).result = .error (.noParent (f.kindName n)) ↔
      f.parent? n = none ∨ f.self? n = none := by
  rcases f.asks_or_not n with hnone | ⟨p, hparent, hself⟩
  · rw [replace_eq_noParent hnone]
    simp [hnone]
  · rw [replace_eq_replaceChild hparent hself]
    simp [f.replaceChild_ne_noParent, hparent, hself]

/-! ## What each operation reports -/

theorem allOrNothing_replaceChild (owner old new : NodeId) :
    (f.replaceChild owner old new).AllOrNothing f := by
  unfold replaceChild
  by_cases hlist : f.isList owner
  · rw [if_pos hlist]
    unfold replaceInList
    cases f.position? owner old with
    | none => exact .failed _ [_]
    | some i =>
      by_cases hself : new = owner
      · simp only [if_pos hself]
        exact .failed _ [_]
      · simp only [if_neg hself]
        cases f.spliceItems? owner new with
        | none => exact .done _ [_] _ _
        | some moved => exact .done _ [_] _ _
  · rw [if_neg hlist]
    unfold replaceInSlot
    cases (f.slots owner).findIdx? (·.occupant == some old) with
    | none => exact .failed _ [_]
    | some i =>
      by_cases hself : new = owner
      · simp only [if_pos hself]
        exact .failed _ [_]
      · simp only [if_neg hself]
        exact .done _ [_] _ _

theorem allOrNothing_removeItem (list child : NodeId) :
    (f.removeItem list child).AllOrNothing f := by
  unfold removeItem
  cases f.position? list child with
  | none => exact .failed _ [_]
  | some i => exact .done _ [_] _ _

theorem atomic_setChild (n : NodeId) (name : String) (value : Option NodeId) :
    (f.setChild n name value).Atomic f := by
  intro e he
  unfold setChild at he ⊢
  cases hindex : Slot.index? (f.slots n) name with
  | none => exact ⟨rfl, nofun⟩
  | some i =>
    rw [hindex] at he
    cases he

/-- The parent's report comes after that of the node. -/
theorem allOrNothing_replace (n new : NodeId) : (f.replace n new).AllOrNothing f := by
  rcases f.asks_or_not n with hnone | ⟨p, hparent, hself⟩
  · rw [replace_eq_noParent hnone]
    exact .failed _ [_]
  · rw [replace_eq_replaceChild hparent hself]
    have h := f.allOrNothing_replaceChild p n new
    generalize f.replaceChild p n new = o at h ⊢
    cases h with
    | failed e spans => exact .failed e (_ :: spans)
    | done r spans event g => exact .done r (_ :: spans) event g

theorem atomic_carryOut (e : Edit) : (f.carryOut e).Atomic f := by
  cases e with
  | fillSlot owner i value =>
    intro refusal hrefusal
    unfold carryOut at hrefusal ⊢
    by_cases hi : i < (f.slots owner).length
    · simp only [if_pos hi] at hrefusal
      cases hrefusal
    · simp only [if_neg hi]
      exact ⟨trivial, nofun⟩
  | setChild owner name value => exact (f.atomic_setChild owner name value).ofTree _
  | removeItem list child => exact (f.allOrNothing_removeItem list child).atomic.ofTree _
  | replaceChild owner old new => exact (f.allOrNothing_replaceChild owner old new).atomic.ofTree _
  | replace n new => exact (f.allOrNothing_replace n new).atomic.ofTree _
  | _ => exact nofun

/-- Whatever the edit and the reason why it fails, nothing has changed. -/
theorem atomic_perform (e : Edit) : (f.perform e).Atomic f := by
  rcases perform_cases f e with ⟨refusal, hperform⟩ | ⟨-, -, hperform⟩
  · rw [hperform]
    exact fun _ _ => ⟨rfl, nofun⟩
  · rw [hperform]
    exact f.atomic_carryOut e

theorem allOrNothing_perform_replaceChild (owner old new : NodeId) :
    (f.perform (.replaceChild owner old new)).AllOrNothing f := by
  rcases perform_cases f (.replaceChild owner old new) with ⟨refusal, hperform⟩ | ⟨-, -, hperform⟩
  · rw [hperform]
    exact .failed refusal []
  · rw [hperform]
    exact (f.allOrNothing_replaceChild owner old new).ofTree .replaced

theorem allOrNothing_perform_removeItem (list child : NodeId) :
    (f.perform (.removeItem list child)).AllOrNothing f := by
  rcases perform_cases f (.removeItem list child) with ⟨refusal, hperform⟩ | ⟨-, -, hperform⟩
  · rw [hperform]
    exact .failed refusal []
  · rw [hperform]
    exact (f.allOrNothing_removeItem list child).ofTree .removed

/-! ## Edits that fail -/

theorem perform_eq_carryOut {f : Forest} {e : Edit} (hlive : ∀ n ∈ e.operands, f.isLive n)
    (hlist : ∀ n ∈ e.list?, f.isList n) : f.perform e = f.carryOut e := by
  unfold perform
  rw [if_pos (List.all_eq_true.2 hlive), if_pos]
  cases h : e.list? with
  | none => rfl
  | some n => exact hlist n h

theorem perform_replaceChild {f : Forest} {owner old new : NodeId} (howner : f.isLive owner)
    (hold : f.isLive old) (hnew : f.isLive new) :
    f.perform (.replaceChild owner old new) = (f.replaceChild owner old new).ofTree .replaced :=
  perform_eq_carryOut (by simp [Edit.operands, howner, hold, hnew]) nofun

theorem perform_removeItem {f : Forest} {list child : NodeId} (hlist : f.isList list)
    (hchild : f.isLive child) :
    f.perform (.removeItem list child) = (f.removeItem list child).ofTree .removed := by
  refine perform_eq_carryOut (by simp [Edit.operands, isLive_of_isList hlist, hchild]) ?_
  intro n hn
  obtain rfl := Option.some.inj hn
  exact hlist

theorem perform_setChild {f : Forest} {n : NodeId} {value : Option NodeId} (hn : f.isLive n)
    (hvalue : ∀ v ∈ value, f.isLive v) (name : String) :
    f.perform (.setChild n name value) = (f.setChild n name value).ofTree .previous := by
  refine perform_eq_carryOut ?_ nofun
  intro m hm
  rcases List.mem_cons.1 hm with rfl | hm
  · exact hn
  · exact hvalue m (Option.mem_toList.1 hm)

theorem perform_replace {f : Forest} {n new : NodeId} (hn : f.isLive n) (hnew : f.isLive new) :
    f.perform (.replace n new) = (f.replace n new).ofTree .replaced :=
  perform_eq_carryOut (by simp [Edit.operands, hn, hnew]) nofun

variable {f : Forest}

/-- In a reachable forest an edit that fails frees nothing when its operands are let go. -/
theorem Reachable.run_of_error (hf : Reachable f) {e : Edit} {refusal : Refusal}
    (h : (f.perform e).result = .error refusal) : (f.run e).forest = f := by
  have hforest := (f.atomic_perform e refusal h).1
  rw [run_forest_eq (hforest.symm ▸ hf.settled), hforest]

/-- **Errors are exact and atomic.** Each edit that can fail does so under stated conditions only, a
    stranger being reported before a node that would become its own child. An edit that fails leaves
    the forest as it was, also when the caller lets its operands go, and reports spans only; a child
    is replaced or removed with one event. -/
theorem Reachable.errors_exact (hf : Reachable f) :
    (∀ owner old new, f.isLive owner → ¬ f.isList owner → f.isLive old → f.isLive new →
        (f.perform (.replaceChild owner old new)).GuardedBy
          [(∀ s ∈ f.slots owner, s.occupant ≠ some old, .tree (f.notAChild owner old)),
            (new = owner, .tree (f.selfReference owner))])
      ∧ (∀ list old new, f.isList list → f.isLive old → f.isLive new →
        (f.perform (.replaceChild list old new)).GuardedBy
          [(some old ∉ f.items list, .tree (f.notAChild list old)),
            (new = list, .tree (f.selfReference list))])
      ∧ (∀ list child, f.isList list → f.isLive child →
        (f.perform (.removeItem list child)).GuardedBy
          [(some child ∉ f.items list, .tree (f.notAChild list child))])
      ∧ (∀ n name value, f.isLive n → (∀ v ∈ value, f.isLive v) →
        (f.perform (.setChild n name value)).GuardedBy
          [(∀ s ∈ f.slots n, s.name ≠ name, .tree (.unknownSlot (f.kindName n) name))])
      ∧ (∀ n new, f.isLive n → f.isLive new →
        ((f.perform (.replace n new)).result = .error (.tree (.noParent (f.kindName n)))
            ↔ f.parent? n = none ∨ f.self? n = none)
          ∧ ∀ p, f.parent? n = some p → f.self? n = some n →
            (f.perform (.replace n new)).result = (f.perform (.replaceChild p n new)).result)
      ∧ (∀ e refusal, (f.perform e).result = .error refusal →
        (f.perform e).forest = f ∧ (f.run e).forest = f
          ∧ ∀ entry ∈ (f.perform e).journal, ¬ entry.isEvent)
      ∧ (∀ owner old new answer, (f.perform (.replaceChild owner old new)).result = .ok answer →
        (f.perform (.replaceChild owner old new)).journal.countP (·.isEvent) = 1)
      ∧ ∀ list child answer, (f.perform (.removeItem list child)).result = .ok answer →
        (f.perform (.removeItem list child)).journal.countP (·.isEvent) = 1 := by
  refine ⟨?_, ?_, ?_, ?_, ?_, ?_, ?_, ?_⟩
  · intro owner old new howner hlist hold hnew
    rw [perform_replaceChild howner hold hnew, replaceChild, if_neg hlist]
    exact (f.guardedBy_replaceInSlot owner old new).ofTree .replaced
  · intro list old new hlist hold hnew
    rw [perform_replaceChild (isLive_of_isList hlist) hold hnew, replaceChild, if_pos hlist]
    exact (f.guardedBy_replaceInList list old new).ofTree .replaced
  · intro list child hlist hchild
    rw [perform_removeItem hlist hchild]
    exact (f.guardedBy_removeItem list child).ofTree .removed
  · intro n name value hn hvalue
    rw [perform_setChild hn hvalue]
    exact (f.guardedBy_setChild n name value).ofTree .previous
  · intro n new hn hnew
    refine ⟨?_, ?_⟩
    · rw [perform_replace hn hnew, Outcome.result_ofTree_eq_error]
      exact f.replace_eq_noParent_iff n new
    · intro p hparent hself
      have hp := isLive_of_self? (hf.linksAccurate n p hparent).1
      rw [perform_replace hn hnew, perform_replaceChild hp hn hnew,
        replace_eq_replaceChild hparent hself]
      rfl
  · intro e refusal h
    obtain ⟨hforest, hsilent⟩ := f.atomic_perform e refusal h
    exact ⟨hforest, hf.run_of_error h, hsilent⟩
  · intro owner old new answer hok
    exact (f.allOrNothing_perform_replaceChild owner old new).countP_isEvent hok
  · intro list child answer hok
    exact (f.allOrNothing_perform_removeItem list child).countP_isEvent hok

/-- A block that holds an identifier, and a block that stands nowhere. -/
def blockAndStranger : List Edit :=
  let block := Catalogue.spec Catalogue.block "" true true
  [.create block, .create block, .create (Catalogue.spec Catalogue.identifier "x" false true),
    .push 0 (some 2)]

/-- The stranger is reported, though the block is asked to hold itself as well. -/
theorem Reachable.errors_exact_blockAndStranger :
    ((empty.runAll blockAndStranger).perform (.replaceChild 0 1 0)).result
        = .error (.tree (.notAChild "Block" "Block"))
      ∧ ((empty.runAll blockAndStranger).run (.replaceChild 0 1 0)).forest
        = empty.runAll blockAndStranger
      ∧ ((empty.runAll blockAndStranger).perform (.replaceChild 0 2 1)).journal.countP (·.isEvent)
        = 1 := by
  obtain ⟨-, hlist, -, -, -, hatomic, hevent, -⟩ :=
    Reachable.errors_exact (Reachable.start.runAll blockAndStranger)
  have hnames : (empty.runAll blockAndStranger).notAChild 0 1 = .notAChild "Block" "Block" := by
    decide +kernel
  have herror := (hlist 0 1 0 (by decide +kernel) (by decide +kernel) (by decide +kernel)).1.2
    (by decide +kernel)
  rw [hnames] at herror
  have hok : ((empty.runAll blockAndStranger).perform (.replaceChild 0 2 1)).result
      = .ok (.replaced (.spliced 0)) :=
    eq_ok_of_toOption (by decide +kernel)
  exact ⟨herror, (hatomic _ _ herror).2.1, hevent 0 2 1 _ hok⟩

end Forest

end NodeForest
