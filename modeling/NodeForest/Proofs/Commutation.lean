import NodeForest.Proofs.ChildReplacement
import NodeForest.Proofs.SingleOwner

set_option autoImplicit false

/-! # Independent replacements commute

Two requests for a replacement are independent if they replace different nodes by different nodes
that neither of them names otherwise. Their owners may be the same, the one may hold the other, and
either of them may splice: in the same list a splice shifts the positions behind it, and the other
request finds its child by identity all the same. -/

namespace NodeForest

section GiveWay

variable {α : Type} [BEq α] [LawfulBEq α] {a b : α} {as bs : List α}

theorem giveWay_append_of_not_mem (h : b ∉ as) (places bs : List α) :
    giveWay (as ++ places) b bs = as ++ giveWay places b bs := by
  induction as with
  | nil => rfl
  | cons c rest ih =>
    have hc : c ≠ b := fun heq => h (List.mem_cons.2 (Or.inl heq.symm))
    have hrest : b ∉ rest := fun hmem => h (List.mem_cons_of_mem c hmem)
    rw [List.cons_append, giveWay_cons_of_ne hc, ih hrest, List.cons_append]

/-- Two different elements give way in any order, if neither is among what the other gives way
    to. -/
theorem giveWay_comm (hne : a ≠ b) (hb : b ∉ as) (ha : a ∉ bs) (places : List α) :
    giveWay (giveWay places a as) b bs = giveWay (giveWay places b bs) a as := by
  induction places with
  | nil => rfl
  | cons c rest ih =>
    by_cases hca : c = a
    · subst hca
      rw [giveWay_cons_self, giveWay_append_of_not_mem hb, giveWay_cons_of_ne hne,
        giveWay_cons_self]
    · by_cases hcb : c = b
      · subst hcb
        rw [giveWay_cons_of_ne hca, giveWay_cons_self, giveWay_cons_self,
          giveWay_append_of_not_mem ha]
      · rw [giveWay_cons_of_ne hca, giveWay_cons_of_ne hcb, giveWay_cons_of_ne hcb,
          giveWay_cons_of_ne hca, ih]

end GiveWay

/-- Asks `owner` to replace its child `old` by `new`. -/
structure Request where
  owner : NodeId
  old : NodeId
  new : NodeId

def Request.edit (r : Request) : Edit :=
  .replaceChild r.owner r.old r.new

namespace Forest

variable {f : Forest} {r s : Request}

/-- The owner finds the child where it looks for it, and callers hold on to the nodes that the
    request names. -/
structure Ready (f : Forest) (r : Request) : Prop where
  finds : some r.old ∈ f.places r.owner
  retained : ∀ n ∈ [r.owner, r.old, r.new], 0 < f.callers n

/-- The new node of `r` has no other part in the two requests. What it holds as a list, it alone
    holds, and that has no part in them at all. -/
structure BringsOwn (f : Forest) (r s : Request) : Prop where
  new_ne : ∀ n ∈ [r.owner, r.old, s.owner, s.old], r.new ≠ n
  soleHolder : ∀ n, some n ∈ f.items r.new → f.HeldOnlyBy r.new n
  item_ne : ∀ n, some n ∈ f.items r.new →
    ∀ m ∈ [r.owner, r.old, r.new, s.owner, s.old, s.new], n ≠ m

/-- The requests replace different nodes, each by a node of its own. -/
structure Independent (f : Forest) (r s : Request) : Prop where
  old_ne : r.old ≠ s.old
  new_ne : r.new ≠ s.new
  first : f.BringsOwn r s
  second : f.BringsOwn s r

theorem Independent.symm (h : f.Independent r s) : f.Independent s r :=
  ⟨h.old_ne.symm, h.new_ne.symm, h.second, h.first⟩

/-! ## What the requests bring -/

/-- The first request brings nothing that the requests name, but its new node. -/
theorem Independent.ne_of_mem_brought (h : f.Independent r s) {n m : NodeId}
    (hn : some n ∈ f.brought r.owner r.new) (hm : m ∈ [r.owner, r.old, s.owner, s.old]) :
    n ≠ m := by
  rcases mem_brought.1 hn with ⟨-, hitem⟩ | ⟨-, rfl⟩
  · refine h.first.item_ne n hitem m ?_
    simp only [List.mem_cons, List.not_mem_nil, or_false] at hm ⊢
    rcases hm with hm | hm | hm | hm <;> simp [hm]
  · exact h.first.new_ne m hm

theorem Independent.old_not_mem_brought (h : f.Independent r s) :
    some s.old ∉ f.brought r.owner r.new :=
  fun hmem => h.ne_of_mem_brought hmem (by simp) rfl

/-- Nothing is brought by both. -/
theorem Independent.not_mem_brought (h : f.Independent r s) {n : NodeId}
    (hn : some n ∈ f.brought r.owner r.new) : some n ∉ f.brought s.owner s.new := by
  intro hn'
  rcases mem_brought.1 hn with ⟨-, hitem⟩ | ⟨-, rfl⟩
  · rcases mem_brought.1 hn' with ⟨-, hitem'⟩ | ⟨-, rfl⟩
    · have hholds : f.holds s.new n := holds_iff.2 (Or.inr hitem')
      exact h.new_ne (h.first.soleHolder n hitem s.new hholds).symm
    · exact h.first.item_ne s.new hitem s.new (by simp) rfl
  · rcases mem_brought.1 hn' with ⟨-, hitem'⟩ | ⟨-, heq⟩
    · exact h.second.item_ne r.new hitem' r.new (by simp) rfl
    · exact h.new_ne heq

/-! ## The second request after the first -/

section After

variable {g g' k k' : Forest}

/-- The first request does not touch what the second one brings. -/
theorem Independent.brought_eq (h : f.Independent r s)
    (hg : ChildReplaced f r.owner r.old r.new g) :
    g.brought s.owner s.new = f.brought s.owner s.new :=
  hg.brought_eq (h.second.new_ne r.owner (by simp)) (fun hnew => h.new_ne hnew.1.symm) s.owner

theorem Independent.replacementBy_eq (h : f.Independent r s)
    (hg : ChildReplaced f r.owner r.old r.new g) :
    g.replacementBy s.owner s.new = f.replacementBy s.owner s.new :=
  hg.replacementBy_eq (h.second.new_ne r.owner (by simp)) (fun hnew => h.new_ne hnew.1.symm)
    s.owner

theorem Independent.ready (h : f.Independent r s) (hs : f.Ready s)
    (hg : ChildReplaced f r.owner r.old r.new g) : g.Ready s := by
  constructor
  · rw [hg.places]
    by_cases howner : s.owner = r.owner
    · rw [if_pos howner]
      exact mem_giveWay_of_ne (howner ▸ hs.finds) (fun heq => h.old_ne (Option.some.inj heq).symm) _
    · have hsource : ¬ (s.owner = r.new ∧ f.Splices r.owner r.new) :=
        fun hnew => h.first.new_ne s.owner (by simp) hnew.1.symm
      rw [if_neg howner, if_neg hsource]
      exact hs.finds
  · intro n hn
    rw [(hg.frame n).callers]
    exact hs.retained n hn

/-- The places of the second owner come out the same in both orders. -/
theorem Independent.places_owner (h : f.Independent r s)
    (hg : ChildReplaced f r.owner r.old r.new g) (hk : ChildReplaced g s.owner s.old s.new k)
    (hg' : ChildReplaced f s.owner s.old s.new g')
    (hk' : ChildReplaced g' r.owner r.old r.new k') :
    k.places s.owner = k'.places s.owner := by
  rw [hk.places, if_pos rfl, h.brought_eq hg, hk'.places, h.symm.brought_eq hg', hg.places,
    hg'.places]
  by_cases howner : s.owner = r.owner
  · rw [if_pos howner, if_pos howner, howner, if_pos rfl]
    refine giveWay_comm (fun heq => h.old_ne (Option.some.inj heq)) h.old_not_mem_brought ?_ _
    rw [← howner]
    exact h.symm.old_not_mem_brought
  · have hsource : ¬ (s.owner = r.new ∧ f.Splices r.owner r.new) :=
      fun hnew => h.first.new_ne s.owner (by simp) hnew.1.symm
    have hsource' : ¬ (s.owner = r.new ∧ g'.Splices r.owner r.new) :=
      fun hnew => h.first.new_ne s.owner (by simp) hnew.1.symm
    rw [if_neg howner, if_neg hsource, if_neg howner, if_neg hsource', hg'.places, if_pos rfl]

theorem Independent.places_eq (h : f.Independent r s)
    (hg : ChildReplaced f r.owner r.old r.new g) (hk : ChildReplaced g s.owner s.old s.new k)
    (hg' : ChildReplaced f s.owner s.old s.new g')
    (hk' : ChildReplaced g' r.owner r.old r.new k') (n : NodeId) :
    k.places n = k'.places n := by
  by_cases hs : n = s.owner
  · subst hs
    exact h.places_owner hg hk hg' hk'
  · by_cases hr : n = r.owner
    · subst hr
      exact (h.symm.places_owner hg' hk' hg hk).symm
    · -- Elsewhere the requests do no more than to drain their new nodes, which are two.
      rw [hk.places, if_neg hs, hg.places, if_neg hr, hk'.places, if_neg hr, hg'.places, if_neg hs]
      simp only [hg.splices_iff, hg'.splices_iff]
      by_cases hnew : n = r.new
      · subst hnew
        simp [h.new_ne]
      · simp [hnew]

/-- Whether the first owner still has its old child is not for the second request to say. -/
theorem Independent.mem_places_owner_iff (h : f.Independent r s)
    (hg : ChildReplaced f r.owner r.old r.new g) (hk : ChildReplaced g s.owner s.old s.new k) :
    some r.old ∈ k.places r.owner ↔ some r.old ∈ g.places r.owner := by
  rw [hk.places]
  by_cases howner : r.owner = s.owner
  · have hold : some r.old ∉ g.brought s.owner s.new :=
      (h.brought_eq hg).symm ▸ h.symm.old_not_mem_brought
    rw [if_pos howner, howner]
    exact mem_giveWay_iff_of_ne (fun heq => h.old_ne (Option.some.inj heq)) hold
  · have hsource : ¬ (r.owner = s.new ∧ g.Splices s.owner s.new) :=
      fun hnew => h.second.new_ne r.owner (by simp) hnew.1.symm
    rw [if_neg howner, if_neg hsource]

/-- The link of a node after both requests, the first of them first. -/
theorem Independent.parent?_second (h : f.Independent r s)
    (hg : ChildReplaced f r.owner r.old r.new g) (hk : ChildReplaced g s.owner s.old s.new k)
    {n : NodeId} (hn : f.isLive n) :
    k.parent? n =
      if some n ∈ f.brought s.owner s.new then f.self? s.owner
      else if n = s.old ∧ some s.old ∉ k.places s.owner ∧ f.parent? s.old = f.self? s.owner then
        none
      else if some n ∈ f.brought r.owner r.new then f.self? r.owner
      else if n = r.old ∧ some r.old ∉ k.places r.owner ∧ f.parent? r.old = f.self? r.owner then
        none
      else f.parent? n := by
  rw [hk.parent? n ((hg.frame n).isLive.trans hn), h.brought_eq hg, (hg.frame s.owner).self?,
    hg.parent? n hn]
  simp only [h.mem_places_owner_iff hg hk]
  by_cases hold : n = s.old
  · subst hold
    have hlink : g.parent? s.old = f.parent? s.old := by
      rw [hg.parent? s.old hn, if_neg h.old_not_mem_brought,
        if_neg fun heq => h.old_ne heq.1.symm]
    rw [hlink]
  · simp [hold]

/-- The link of a node comes out the same in both orders. -/
theorem Independent.parent?_eq (h : f.Independent r s)
    (hg : ChildReplaced f r.owner r.old r.new g) (hk : ChildReplaced g s.owner s.old s.new k)
    (hg' : ChildReplaced f s.owner s.old s.new g')
    (hk' : ChildReplaced g' r.owner r.old r.new k') {n : NodeId} (hn : f.isLive n) :
    k.parent? n = k'.parent? n := by
  rw [h.parent?_second hg hk hn, h.symm.parent?_second hg' hk' hn,
    h.places_eq hg hk hg' hk' s.owner, h.places_eq hg hk hg' hk' r.owner]
  -- A node is adopted by one of the owners, released by one of them, or left alone.
  by_cases hr : some n ∈ f.brought r.owner r.new
  · have hs := h.not_mem_brought hr
    have hold : n ≠ s.old := h.ne_of_mem_brought hr (by simp)
    simp [hr, hs, hold]
  · by_cases hs : some n ∈ f.brought s.owner s.new
    · have hold : n ≠ r.old := h.symm.ne_of_mem_brought hs (by simp)
      simp [hr, hs, hold]
    · by_cases hold : n = r.old
      · subst hold
        simp [hr, hs, h.old_ne]
      · simp [hr, hs, hold]

end After

/-! ## Both orders -/

theorem Ready.carriedOut (hr : f.Ready r) (hf : Reachable f) (hne : r.new ≠ r.owner) :
    (f.run r.edit).result = .ok (.replaced (f.replacementBy r.owner r.new))
      ∧ ChildReplaced f r.owner r.old r.new (f.run r.edit).forest :=
  hf.run_replaceChild hr.finds hne (hr.retained r.old (by simp))
    (isLive_of_callers_pos (hr.retained r.new (by simp)))

/-- The second request is carried out as it would have been without the first. -/
theorem Independent.carriedOut_second (h : f.Independent r s) (hf : Reachable f) (hs : f.Ready s)
    (hg : ChildReplaced f r.owner r.old r.new (f.run r.edit).forest) :
    ((f.run r.edit).forest.run s.edit).result = .ok (.replaced (f.replacementBy s.owner s.new))
      ∧ ChildReplaced (f.run r.edit).forest s.owner s.old s.new
        ((f.run r.edit).forest.run s.edit).forest := by
  rw [← h.replacementBy_eq hg]
  exact (h.ready hs hg).carriedOut (hf.run r.edit) (h.second.new_ne s.owner (by simp))

/-- Two independent requests succeed in both orders, are answered alike in both, and lead to the
    same forest. -/
theorem Reachable.replacements_commute (hf : Reachable f) (hr : f.Ready r) (hs : f.Ready s)
    (h : f.Independent r s) :
    (f.run r.edit).result = .ok (.replaced (f.replacementBy r.owner r.new))
      ∧ ((f.run r.edit).forest.run s.edit).result = .ok (.replaced (f.replacementBy s.owner s.new))
      ∧ (f.run s.edit).result = .ok (.replaced (f.replacementBy s.owner s.new))
      ∧ ((f.run s.edit).forest.run r.edit).result = .ok (.replaced (f.replacementBy r.owner r.new))
      ∧ f.runAll [r.edit, s.edit] = f.runAll [s.edit, r.edit] := by
  obtain ⟨hr₁, hg⟩ := hr.carriedOut hf (h.first.new_ne r.owner (by simp))
  obtain ⟨hs₂, hk⟩ := h.carriedOut_second hf hs hg
  obtain ⟨hs₁, hg'⟩ := hs.carriedOut hf (h.second.new_ne s.owner (by simp))
  obtain ⟨hr₂, hk'⟩ := h.symm.carriedOut_second hf hr hg'
  refine ⟨hr₁, hs₂, hs₁, hr₂, ?_⟩
  have hframe := fun n => (hg.frame n).trans (hk.frame n)
  have hframe' := fun n => (hg'.frame n).trans (hk'.frame n)
  refine eq_of_frame ?_ (fun n => ?_) (h.places_eq hg hk hg' hk') fun n => ?_
  · exact (hk.size.trans hg.size).trans (hk'.size.trans hg'.size).symm
  · exact Eq.trans (hframe n) (hframe' n).symm
  · by_cases hn : f.isLive n
    · exact h.parent?_eq hg hk hg' hk' hn
    · have hk_live := (hframe n).isLive ▸ hn
      have hk'_live := (hframe' n).isLive ▸ hn
      exact (parent?_of_not_isLive hk_live).trans (parent?_of_not_isLive hk'_live).symm

/-- A block that holds two identifiers, the first of them twice, a second block that holds two more,
    and one that nobody holds. -/
def blockToShift : List Edit :=
  let block := Catalogue.spec Catalogue.block "" true true
  let identifier := Catalogue.spec Catalogue.identifier "x" false true
  [.create block, .create identifier, .create identifier, .create block, .create identifier,
    .create identifier, .create identifier, .push 0 (some 1), .push 0 (some 2), .push 0 (some 1),
    .push 3 (some 4), .push 3 (some 5)]

theorem Reachable.replacements_commute_blockToShift :
    ((empty.runAll blockToShift).run (.replaceChild 0 1 3)).result = .ok (.replaced (.spliced 2))
      ∧ ((empty.runAll blockToShift).run (.replaceChild 0 2 6)).result
        = .ok (.replaced (.single 6))
      ∧ (empty.runAll blockToShift).runAll [.replaceChild 0 1 3, .replaceChild 0 2 6]
        = (empty.runAll blockToShift).runAll [.replaceChild 0 2 6, .replaceChild 0 1 3] := by
  have hfirst : (empty.runAll blockToShift).items 3 = [some 4, some 5] := by decide +kernel
  have hsecond : (empty.runAll blockToShift).items 6 = [] := by decide +kernel
  have hindependent : (empty.runAll blockToShift).Independent ⟨0, 1, 3⟩ ⟨0, 2, 6⟩ :=
    { old_ne := by decide
      new_ne := by decide
      first :=
        { new_ne := by decide
          soleHolder := fun n hn => by
            obtain rfl | rfl : n = 4 ∨ n = 5 := by simpa [hfirst] using hn
            · decide +kernel
            · decide +kernel
          item_ne := fun n hn => by
            obtain rfl | rfl : n = 4 ∨ n = 5 := by simpa [hfirst] using hn
            · decide
            · decide }
      second :=
        { new_ne := by decide
          soleHolder := fun n hn => by simp [hsecond] at hn
          item_ne := fun n hn => by simp [hsecond] at hn } }
  obtain ⟨hspliced, -, hsingle, -, hforest⟩ :=
    Reachable.replacements_commute (Reachable.start.runAll blockToShift)
      ⟨by decide +kernel, by decide +kernel⟩ ⟨by decide +kernel, by decide +kernel⟩ hindependent
  have hthree : (empty.runAll blockToShift).replacementBy 0 3 = .spliced 2 := by decide +kernel
  have hsix : (empty.runAll blockToShift).replacementBy 0 6 = .single 6 := by decide +kernel
  exact ⟨hthree ▸ hspliced, hsix ▸ hsingle, hforest⟩

end Forest

end NodeForest
