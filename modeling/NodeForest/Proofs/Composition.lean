import NodeForest.Proofs.ChildReplacement

set_option autoImplicit false

/-! # Replacements compose

A child can be replaced in two steps: a node that has no part in anything stands in for it, and then
gives way itself. What the child loses in the first step it gets back in the second or has to lose
anyhow, so the forest is the one that a single step leads to. In particular a replacement is undone
by replacing back. -/

namespace NodeForest

section GiveWay

variable {α : Type} [BEq α] [LawfulBEq α] {places moved : List α} {a b : α}

/-- What takes the place of `a` gives it on. -/
theorem giveWay_giveWay (hb : b ∉ places) (a : α) (moved : List α) :
    giveWay (giveWay places a [b]) b moved = giveWay places a moved := by
  induction places with
  | nil => rfl
  | cons c rest ih =>
    have hc : c ≠ b := fun heq => hb (List.mem_cons.2 (Or.inl heq.symm))
    have hrest : b ∉ rest := fun hmem => hb (List.mem_cons_of_mem c hmem)
    by_cases hca : c = a
    · subst hca
      rw [giveWay_cons_self, giveWay_cons_self, List.singleton_append, giveWay_cons_self]
    · rw [giveWay_cons_of_ne hca, giveWay_cons_of_ne hca, giveWay_cons_of_ne hc, ih hrest]

/-- What gives way to itself stays. -/
theorem giveWay_self (places : List α) (a : α) : giveWay places a [a] = places := by
  induction places with
  | nil => rfl
  | cons c rest ih =>
    by_cases hca : c = a
    · subst hca
      rw [giveWay_cons_self, List.singleton_append]
    · rw [giveWay_cons_of_ne hca, ih]

/-- Whether `a` stands in a further place is not for what comes in to say. -/
theorem mem_giveWay_self_iff (ha : a ∉ moved) :
    a ∈ giveWay places a moved ↔ a ∈ places.erase a := by
  induction places with
  | nil => rfl
  | cons c rest ih =>
    by_cases hca : c = a
    · subst hca
      rw [giveWay_cons_self, List.erase_cons_head, List.mem_append]
      exact or_iff_right ha
    · have hbeq : ¬ (c == a) = true := mt beq_iff_eq.1 hca
      rw [giveWay_cons_of_ne hca, List.erase_cons_tail hbeq, List.mem_cons, List.mem_cons, ih]

end GiveWay

namespace Forest

variable {f g h k : Forest} {owner a b c : NodeId}

/-- `b` can stand in for the child `a` of `owner`: nobody holds it, it has no parent, and the owner
    does not take it apart. -/
structure StandsIn (f : Forest) (owner a b : NodeId) : Prop where
  ne_owner : b ≠ owner
  ne_child : b ≠ a
  unheld : ¬ f.isHeld b
  parentless : f.parent? b = none
  single : ¬ f.Splices owner b

namespace StandsIn

variable (hb : f.StandsIn owner a b)

include hb

theorem brought_eq : f.brought owner b = [some b] :=
  if_neg hb.single

theorem not_mem_places (p : NodeId) : some b ∉ f.places p :=
  fun hmem => hb.unheld (isHeld_of_holds (holds_of_mem_places hmem))

/-! ## The second step -/

section Second

variable (hg : ChildReplaced f owner a b g)

include hg

/-- The first step does not touch what the second one brings. -/
theorem second_brought_eq (hc : c ≠ owner) : g.brought owner c = f.brought owner c :=
  hg.brought_eq hc (fun hsource => hb.single hsource.2) owner

theorem places_owner : g.places owner = giveWay (f.places owner) (some a) [some b] := by
  rw [hg.places, if_pos rfl, hb.brought_eq]

theorem parent?_standIn (hlive : f.isLive b) : g.parent? b = f.self? owner := by
  rw [hg.parent? b hlive, hb.brought_eq, if_pos (List.mem_singleton.2 rfl)]

theorem parent?_of_ne {n : NodeId} (hn : f.isLive n) (hne : n ≠ b) :
    g.parent? n = if n = a ∧ some a ∉ (f.places owner).erase (some a)
      ∧ f.parent? a = f.self? owner then none else f.parent? n := by
  have hnb : some n ∉ [some b] := fun hmem => hne (Option.some.inj (List.mem_singleton.1 hmem))
  have hab : some a ∉ [some b] := fun hmem =>
    hb.ne_child (Option.some.inj (List.mem_singleton.1 hmem)).symm
  rw [hg.parent? n hn, hb.brought_eq, if_neg hnb, hb.places_owner hg]
  simp only [mem_giveWay_self_iff hab]

end Second

/-! ## One step or two -/

section Both

variable (hg : ChildReplaced f owner a b g) (hk : ChildReplaced g owner b c k)
  (hh : ChildReplaced f owner a c h) (hc : c ≠ owner)

include hg hk hh hc

theorem places_eq (n : NodeId) : k.places n = h.places n := by
  rw [hk.places, hh.places, hb.second_brought_eq hg hc]
  by_cases hn : n = owner
  · rw [if_pos hn, if_pos hn, hb.places_owner hg,
      giveWay_giveWay (hb.not_mem_places owner)]
  · have hsource : ¬ (n = b ∧ f.Splices owner b) := fun hsource => hb.single hsource.2
    have hbefore : g.places n = f.places n := by
      rw [hg.places, if_neg hn, if_neg hsource]
    rw [if_neg hn, if_neg hn, hbefore]
    simp only [hg.splices_iff]

theorem parent?_eq (hcb : c ≠ b) {n : NodeId} (hn : f.isLive n) : k.parent? n = h.parent? n := by
  rw [hk.parent? n ((hg.frame n).isLive.trans hn), hh.parent? n hn, hb.second_brought_eq hg hc,
    hb.places_eq hg hk hh hc, (hg.frame owner).self?]
  by_cases hbrought : some n ∈ f.brought owner c
  · rw [if_pos hbrought, if_pos hbrought]
  rw [if_neg hbrought, if_neg hbrought]
  by_cases hnb : n = b
  · -- The stand-in is adopted and released, and is left without a parent as it was.
    subst hnb
    have hgone : some n ∉ h.places owner := by
      rw [hh.places, if_pos rfl]
      intro hmem
      rcases mem_or_mem_of_mem_giveWay hmem with hplace | hmoved
      · exact hb.not_mem_places owner hplace
      · exact hbrought hmoved
    have hlink := hb.parent?_standIn hg hn
    have hother : ¬ (n = a ∧ some a ∉ h.places owner ∧ f.parent? a = f.self? owner) :=
      fun hcut => hb.ne_child hcut.1
    rw [if_pos ⟨rfl, hgone, hlink⟩, if_neg hother, hb.parentless]
  · have hsecond : ¬ (n = b ∧ some b ∉ h.places owner ∧ g.parent? b = f.self? owner) :=
      fun hcut => hnb hcut.1
    rw [if_neg hsecond, hb.parent?_of_ne hg hn hnb]
    by_cases hna : n = a
    · -- The child is released in either case, unless it stands in a further place.
      subst hna
      rw [hh.places, if_pos rfl]
      simp only [mem_giveWay_self_iff hbrought]
    · rw [if_neg fun hcut => hna hcut.1, if_neg fun hcut => hna hcut.1]

theorem forest_eq (hcb : c ≠ b) : k = h := by
  have hframe := fun n => (hg.frame n).trans (hk.frame n)
  refine eq_of_frame ?_ (fun n => ?_) (hb.places_eq hg hk hh hc) fun n => ?_
  · exact (hk.size.trans hg.size).trans hh.size.symm
  · exact Eq.trans (hframe n) (hh.frame n).symm
  · by_cases hn : f.isLive n
    · exact hb.parent?_eq hg hk hh hc hcb hn
    · have hk_live := (hframe n).isLive ▸ hn
      have hh_live := (hh.frame n).isLive ▸ hn
      exact (parent?_of_not_isLive hk_live).trans (parent?_of_not_isLive hh_live).symm

end Both

end StandsIn

/-! ## Undoing -/

section Undone

variable (hh : ChildReplaced f owner a a h) (hsingle : ¬ f.Splices owner a)

include hh hsingle

/-- A child that replaces itself stays in its places. -/
theorem ChildReplaced.sameContents_self (n : NodeId) : SameContents f h n := by
  refine (hh.frame n).sameContents ?_
  have hbrought : f.brought owner a = [some a] := if_neg hsingle
  have hsource : ¬ (n = a ∧ f.Splices owner a) := fun hsource => hsingle hsource.2
  rw [hh.places, if_neg hsource, hbrought, giveWay_self]
  split
  · next hn => rw [hn]
  · rfl

/-- It is adopted, and nobody else is given up. -/
theorem ChildReplaced.parent?_self (hold : some a ∈ f.places owner) {n : NodeId}
    (hn : f.isLive n) : h.parent? n = if n = a then f.self? owner else f.parent? n := by
  have hbrought : f.brought owner a = [some a] := if_neg hsingle
  rw [hh.parent? n hn, hbrought, hh.places, if_pos rfl, hbrought, giveWay_self]
  by_cases hna : n = a
  · rw [if_pos (by simp [hna]), if_pos hna]
  · rw [if_neg (by simp [hna]), if_neg fun hcut => hcut.2.1 hold, if_neg hna]

end Undone

/-! ## The law -/

/-- **Replacements compose.** A child replaced by a node that stands in for it, which is replaced in
    turn, leaves the forest and gets the answer of a single replacement. Nothing is assumed of what
    comes in at last but that it is neither the owner nor the stand-in. If the child itself comes
    back, all places are as at the start, the stand-in has no parent, and the child has the owner as
    its parent if the owner knows itself, and otherwise none. -/
theorem Reachable.replacements_compose (hf : Reachable f) (hold : some a ∈ f.places owner)
    (hb : f.StandsIn owner a b) (hc : c ≠ owner) (hcb : c ≠ b)
    (hretained : ∀ n ∈ [owner, a, b, c], 0 < f.callers n) :
    (f.run (.replaceChild owner a b)).result = .ok (.replaced (.single b))
      ∧ ((f.run (.replaceChild owner a b)).forest.run (.replaceChild owner b c)).result
        = .ok (.replaced (f.replacementBy owner c))
      ∧ (f.run (.replaceChild owner a c)).result = .ok (.replaced (f.replacementBy owner c))
      ∧ f.runAll [.replaceChild owner a b, .replaceChild owner b c]
        = f.runAll [.replaceChild owner a c]
      ∧ ∀ g, g = f.runAll [.replaceChild owner a b, .replaceChild owner b c] → c = a →
          ¬ f.Splices owner a → (∀ n, g.slots n = f.slots n ∧ g.items n = f.items n)
            ∧ g.parent? b = none ∧ g.parent? a = f.self? owner := by
  have ha := hretained a (by simp)
  have hlive := isLive_of_callers_pos (hretained b (by simp))
  have hlive' := isLive_of_callers_pos (hretained c (by simp))
  obtain ⟨hfirst, hg⟩ := hf.run_replaceChild hold hb.ne_owner ha hlive
  obtain ⟨hdirect, hh⟩ := hf.run_replaceChild hold hc ha hlive'
  have hsingle : f.replacementBy owner b = .single b := if_neg hb.single
  have hsource : ¬ (c = b ∧ f.Splices owner b) := fun hsource => hcb hsource.1
  -- The stand-in is where the owner looks for it, and all that is named is still there.
  have hfound : some b ∈ (f.run (.replaceChild owner a b)).forest.places owner := by
    rw [hb.places_owner hg]
    exact mem_giveWay_of_mem_moved hold (List.mem_singleton.2 rfl)
  have hkept : 0 < (f.run (.replaceChild owner a b)).forest.callers b := by
    rw [(hg.frame b).callers]
    exact hretained b (by simp)
  obtain ⟨hsecond, hk⟩ :=
    (hf.run _).run_replaceChild hfound hc hkept ((hg.frame c).isLive.trans hlive')
  rw [hg.replacementBy_eq hc hsource] at hsecond
  have hforest : f.runAll [.replaceChild owner a b, .replaceChild owner b c]
      = f.runAll [.replaceChild owner a c] := hb.forest_eq hg hk hh hc hcb
  refine ⟨hsingle ▸ hfirst, hsecond, hdirect, hforest, ?_⟩
  rintro g rfl rfl hsplices
  rw [hforest]
  have hsame := hh.sameContents_self hsplices
  refine ⟨fun n => ⟨(hsame n).slots, (hsame n).items⟩, ?_, ?_⟩
  · exact (hh.parent?_self hsplices hold hlive).trans ((if_neg hb.ne_child).trans hb.parentless)
  · exact (hh.parent?_self hsplices hold hlive').trans (if_pos rfl)

/-- A block that holds an identifier twice and a second block between, which holds the identifier as
    well and itself; another identifier stands nowhere. -/
def blockAndStandIn : List Edit :=
  let block := Catalogue.spec Catalogue.block "" true true
  let identifier := Catalogue.spec Catalogue.identifier "x" false true
  [.create block, .create block, .create identifier, .create identifier, .push 0 (some 2),
    .push 0 (some 1), .push 0 (some 2), .push 1 (some 2), .push 1 (some 1)]

/-- The second block gives way to the identifier and comes back as its items. -/
theorem Reachable.replacements_compose_blockAndStandIn :
    (((empty.runAll blockAndStandIn).run (.replaceChild 0 1 3)).forest.run
        (.replaceChild 0 3 1)).result = .ok (.replaced (.spliced 2))
      ∧ (empty.runAll blockAndStandIn).runAll [.replaceChild 0 1 3, .replaceChild 0 3 1]
        = (empty.runAll blockAndStandIn).runAll [.replaceChild 0 1 1] := by
  have hstandsIn : (empty.runAll blockAndStandIn).StandsIn 0 1 3 :=
    { ne_owner := by decide
      ne_child := by decide
      unheld := by decide +kernel
      parentless := by decide +kernel
      single := by decide +kernel }
  have hspliced : (empty.runAll blockAndStandIn).replacementBy 0 1 = .spliced 2 := by
    decide +kernel
  have hblock : (1 : NodeId) ≠ 0 := by decide
  have hstandIn : (1 : NodeId) ≠ 3 := by decide
  obtain ⟨-, hsecond, -, hforest, -⟩ :=
    Reachable.replacements_compose (Reachable.start.runAll blockAndStandIn) (by decide +kernel)
      hstandsIn hblock hstandIn (by decide +kernel)
  exact ⟨hspliced ▸ hsecond, hforest⟩

/-- An owner that does not know itself, with an identifier in its slot, and another identifier. -/
def orphanRing : List Edit :=
  let ring : NodeSpec := ⟨⟨"Ring", none⟩, .root ⟨"Ring", "Ring", ["next"]⟩, "", false, false⟩
  let identifier := Catalogue.spec Catalogue.identifier "x" false true
  [.create ring, .create identifier, .create identifier, .fillSlot 0 0 (some 1)]

/-- A child that comes back to an owner that does not know itself has no parent, though the owner
    holds it as at the start and both replacements succeed. -/
theorem exists_replaced_back_without_parent :
    ∃ f, Reachable f ∧ some 1 ∈ f.places 0 ∧ f.StandsIn 0 1 2 ∧ ¬ f.Splices 0 1
      ∧ (∀ n ∈ [0, 1, 2], 0 < f.callers n)
      ∧ (f.run (.replaceChild 0 1 2)).result = .ok (.replaced (.single 2))
      ∧ ((f.run (.replaceChild 0 1 2)).forest.run (.replaceChild 0 2 1)).result
        = .ok (.replaced (.single 1))
      ∧ (f.runAll [.replaceChild 0 1 2, .replaceChild 0 2 1]).parent? 1 ≠ some 0 :=
  have hstandsIn : (empty.runAll orphanRing).StandsIn 0 1 2 :=
    { ne_owner := by decide
      ne_child := by decide
      unheld := by decide +kernel
      parentless := by decide +kernel
      single := by decide +kernel }
  ⟨empty.runAll orphanRing, Reachable.start.runAll orphanRing, by decide +kernel, hstandsIn,
    by decide +kernel, by decide +kernel, eq_ok_of_toOption (by decide +kernel),
    eq_ok_of_toOption (by decide +kernel), by decide +kernel⟩

end Forest

end NodeForest
