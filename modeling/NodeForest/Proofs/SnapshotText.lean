import NodeForest.Json.Token
import NodeForest.Proofs.Acyclicity
import NodeForest.Proofs.SnapshotDecoding

set_option autoImplicit false

/-! # A snapshot is determined by its text

In the compact text of a value without numbers it is clear at each character what has ended there
and what has not, whatever text follows. A string ends at the first quote that no escape has taken,
and every other value shows by its first character what it is. The numbers are left out: they end
where the text goes on with something else, and snapshots have none. -/

namespace NodeForest

namespace Json

variable {v w : Json} {vs ws : List Json} {ms ns : List (String × Json)} {r r' : List Char}

/-! ## Strings -/

theorem hexQuad?_hexPair {n : Nat} (h : n < 0x20) :
    hexQuad? '0' '0' (Nat.digitChar (n / 16)) (Nat.digitChar (n % 16)) = some n := by
  revert n
  decide

/-- What stands for a character is read as that character. -/
theorem stringBody?_escape (c : Char) (rest : List Char) :
    stringBody? (escape c ++ rest) = prepend c (stringBody? rest) := by
  by_cases hquote : c = '"'
  · subst hquote
    simp [escape, stringBody?, unescape?]
  by_cases hslash : c = '\\'
  · subst hslash
    simp [escape, stringBody?, unescape?]
  by_cases hbackspace : c.toNat = 0x08
  · obtain rfl : c = Char.ofNat 0x08 := by rw [← hbackspace, Char.ofNat_toNat]
    simp [escape, stringBody?, unescape?]
  by_cases hfeed : c.toNat = 0x0c
  · obtain rfl : c = Char.ofNat 0x0c := by rw [← hfeed, Char.ofNat_toNat]
    simp [escape, stringBody?, unescape?]
  by_cases hline : c = '\n'
  · subst hline
    simp [escape, stringBody?, unescape?]
  by_cases hreturn : c = '\r'
  · subst hreturn
    simp [escape, stringBody?, unescape?]
  by_cases htab : c = '\t'
  · subst htab
    simp [escape, stringBody?, unescape?]
  rw [escape, if_neg hquote, if_neg hslash, if_neg hbackspace, if_neg hfeed, if_neg hline,
    if_neg hreturn, if_neg htab]
  by_cases hcontrol : c.toNat < 0x20
  · have hhigh : isHighHalf c.toNat = false := by
      rw [isHighHalf, Bool.and_eq_false_iff, decide_eq_false_iff_not]
      omega
    have hlow : isLowHalf c.toNat = false := by
      rw [isLowHalf, Bool.and_eq_false_iff, decide_eq_false_iff_not]
      omega
    simp [hcontrol, hexPair, stringBody?, hexQuad?_hexPair hcontrol, hhigh, hlow]
  · rw [if_neg hcontrol, List.singleton_append, stringBody?.eq_def]
    split <;> simp_all

theorem stringBody?_escaped (cs rest : List Char) :
    stringBody? (cs.flatMap escape ++ '"' :: rest) = some (cs, rest) := by
  induction cs with
  | nil => simp [stringBody?]
  | cons c cs ih =>
    rw [List.flatMap_cons, List.append_assoc, stringBody?_escape, ih]
    rfl

theorem quotedChars_inj {s t : String} (h : quotedChars s ++ r = quotedChars t ++ r') :
    s = t ∧ r = r' := by
  simp only [quotedChars, List.cons_append, List.append_assoc, List.nil_append,
    List.cons.injEq, true_and] at h
  have hread := congrArg stringBody? h
  rw [stringBody?_escaped, stringBody?_escaped, Option.some.injEq, Prod.mk.injEq] at hread
  exact ⟨String.toList_injective hread.1, hread.2⟩

/-! ## Values -/

/-- No part of the value is a number. -/
inductive Numberless : Json → Prop
  | null : Numberless .null
  | yes : Numberless (.bool true)
  | no : Numberless (.bool false)
  | string (s : String) : Numberless (.string s)
  | array {vs : List Json} : (∀ v ∈ vs, Numberless v) → Numberless (.array vs)
  | object {ms : List (String × Json)} : (∀ m ∈ ms, Numberless m.2) → Numberless (.object ms)

/-- The first character of a value that is no number. -/
def lead : Json → Char
  | null => 'n'
  | bool true => 't'
  | bool false => 'f'
  | string _ => '"'
  | array _ => '['
  | object _ => '\x7b'
  | integer _ | fraction _ => ' '

theorem Numberless.exists_chars_eq (h : Numberless v) : ∃ rest, v.chars = v.lead :: rest := by
  cases h with
  | @array vs _ => cases vs <;> exact ⟨_, by rw [chars]; rfl⟩
  | @object ms _ => cases ms <;> exact ⟨_, by rw [chars]; rfl⟩
  | _ => exact ⟨_, by rw [chars]; rfl⟩

theorem Numberless.lead_eq (hv : Numberless v) (hw : Numberless w)
    (h : v.chars ++ r = w.chars ++ r') : v.lead = w.lead := by
  obtain ⟨_, hvc⟩ := hv.exists_chars_eq
  obtain ⟨_, hwc⟩ := hw.exists_chars_eq
  rw [hvc, hwc] at h
  exact (List.cons.inj h).1

/-- No value begins like the end of an array. -/
theorem lead_ne_closing (v : Json) : v.lead ≠ ']' := by
  unfold lead
  split <;> decide

theorem Numberless.chars_append_ne (h : Numberless v) : v.chars ++ r ≠ ']' :: r' := by
  obtain ⟨_, hv⟩ := h.exists_chars_eq
  rw [hv]
  exact fun heq => v.lead_ne_closing (List.cons.inj heq).1

/-- Where the text of the value begins, no other value can be read, and it ends at one place. -/
def ReadAlone (v : Json) : Prop :=
  ∀ {w r r'}, Numberless w → v.chars ++ r = w.chars ++ r' → v = w ∧ r = r'

theorem charsOfRest_inj (hvs : ∀ v ∈ vs, ReadAlone v) (hws : ∀ w ∈ ws, Numberless w)
    (h : charsOfRest vs ++ r = charsOfRest ws ++ r') : vs = ws ∧ r = r' := by
  induction vs generalizing ws with
  | nil =>
    cases ws with
    | nil => simpa [charsOfRest] using h
    | cons w ws => simp [charsOfRest] at h
  | cons v vs ih =>
    cases ws with
    | nil => simp [charsOfRest] at h
    | cons w ws =>
      rw [List.forall_mem_cons] at hvs hws
      simp only [charsOfRest, List.cons_append, List.append_assoc, List.cons.injEq, true_and] at h
      obtain ⟨rfl, hrest⟩ := hvs.1 hws.1 h
      obtain ⟨rfl, rfl⟩ := ih hvs.2 hws.2 hrest
      exact ⟨rfl, rfl⟩

theorem charsOfMembers_inj (hms : ∀ m ∈ ms, ReadAlone m.2) (hns : ∀ n ∈ ns, Numberless n.2)
    (h : charsOfMembers ms ++ r = charsOfMembers ns ++ r') : ms = ns ∧ r = r' := by
  induction ms generalizing ns with
  | nil =>
    cases ns with
    | nil => simpa [charsOfMembers] using h
    | cons n ns => simp [charsOfMembers] at h
  | cons m ms ih =>
    obtain ⟨key, v⟩ := m
    cases ns with
    | nil => simp [charsOfMembers] at h
    | cons n ns =>
      obtain ⟨key', w⟩ := n
      rw [List.forall_mem_cons] at hms hns
      simp only [charsOfMembers, List.cons_append, List.append_assoc, List.cons.injEq,
        true_and] at h
      obtain ⟨rfl, hvalue⟩ := quotedChars_inj h
      obtain ⟨rfl, hrest⟩ := hms.1 hns.1 (List.cons.inj hvalue).2
      obtain ⟨rfl, rfl⟩ := ih hms.2 hns.2 hrest
      exact ⟨rfl, rfl⟩

theorem chars_array_inj (hvs : ∀ v ∈ vs, Numberless v) (halone : ∀ v ∈ vs, ReadAlone v)
    (hws : ∀ w ∈ ws, Numberless w) (h : (array vs).chars ++ r = (array ws).chars ++ r') :
    vs = ws ∧ r = r' := by
  match vs, ws with
  | [], [] => simpa [chars] using h
  | [], w :: ws =>
    rw [List.forall_mem_cons] at hws
    simp only [chars, List.cons_append, List.append_assoc, List.cons.injEq, true_and] at h
    exact absurd h.symm hws.1.chars_append_ne
  | v :: vs, [] =>
    rw [List.forall_mem_cons] at hvs
    simp only [chars, List.cons_append, List.append_assoc, List.cons.injEq, true_and] at h
    exact absurd h hvs.1.chars_append_ne
  | v :: vs, w :: ws =>
    rw [List.forall_mem_cons] at halone hws
    simp only [chars, List.cons_append, List.append_assoc, List.cons.injEq, true_and] at h
    obtain ⟨rfl, hrest⟩ := halone.1 hws.1 h
    obtain ⟨rfl, rfl⟩ := charsOfRest_inj halone.2 hws.2 hrest
    exact ⟨rfl, rfl⟩

theorem chars_object_inj (halone : ∀ m ∈ ms, ReadAlone m.2) (hns : ∀ n ∈ ns, Numberless n.2)
    (h : (object ms).chars ++ r = (object ns).chars ++ r') : ms = ns ∧ r = r' := by
  match ms, ns with
  | [], [] => simpa [chars] using h
  | [], (key, w) :: ns => simp [chars, quotedChars] at h
  | (key, v) :: ms, [] => simp [chars, quotedChars] at h
  | (key, v) :: ms, (key', w) :: ns =>
    rw [List.forall_mem_cons] at halone hns
    simp only [chars, List.cons_append, List.append_assoc, List.cons.injEq, true_and] at h
    obtain ⟨rfl, hvalue⟩ := quotedChars_inj h
    obtain ⟨rfl, hrest⟩ := halone.1 hns.1 (List.cons.inj hvalue).2
    obtain ⟨rfl, rfl⟩ := charsOfMembers_inj halone.2 hns.2 hrest
    exact ⟨rfl, rfl⟩

/-- Every value without numbers is read alone, whatever follows. -/
theorem Numberless.readAlone (hv : Numberless v) : ReadAlone v := by
  intro w r r' hw h
  have hlead := hv.lead_eq hw h
  induction hv generalizing w r r' with
  | null | yes | no =>
    cases hw <;> simp_all [lead, chars]
  | string s =>
    cases hw with
    | string t =>
      rw [chars, chars] at h
      obtain ⟨rfl, rfl⟩ := quotedChars_inj h
      exact ⟨rfl, rfl⟩
    | _ => simp [lead] at hlead
  | @array vs hvs ih =>
    cases hw with
    | array hws =>
      have halone : ∀ v ∈ vs, ReadAlone v := fun v hv _ _ _ hw h =>
        ih v hv hw h ((hvs v hv).lead_eq hw h)
      obtain ⟨rfl, rfl⟩ := chars_array_inj hvs halone hws h
      exact ⟨rfl, rfl⟩
    | _ => simp [lead] at hlead
  | @object ms hms ih =>
    cases hw with
    | object hns =>
      have halone : ∀ m ∈ ms, ReadAlone m.2 := fun m hm _ _ _ hw h =>
        ih m hm hw h ((hms m hm).lead_eq hw h)
      obtain ⟨rfl, rfl⟩ := chars_object_inj halone hns h
      exact ⟨rfl, rfl⟩
    | _ => simp [lead] at hlead

theorem Numberless.compact_inj (hv : Numberless v) (hw : Numberless w)
    (h : v.compact = w.compact) : v = w := by
  have hchars : v.chars ++ [] = w.chars ++ [] := by rw [String.ofList_injective h]
  exact (hv.readAlone hw hchars).1

end Json

/-! ## Snapshots -/

namespace Snapshot

open Json

mutual

theorem numberless_toJson : (s : Snapshot) → Numberless s.toJson
  | .node kind slots => by
    have hslots := Numberless.array (numberless_slotsToJson slots)
    rw [toJson]
    exact .object (by simp [Numberless.string, hslots])
  | .list kind items => by
    have hitems := Numberless.array (numberless_itemsToJson items)
    rw [toJson]
    exact .object (by simp [Numberless.string, hitems])

theorem numberless_slotsToJson :
    (slots : List (Slot Snapshot)) → ∀ v ∈ slotsToJson slots, Numberless v
  | [] => by simp [slotsToJson]
  | ⟨name, child⟩ :: rest => by
    rw [slotsToJson, List.forall_mem_cons]
    refine ⟨.object ?_, numberless_slotsToJson rest⟩
    simp [Numberless.string, numberless_childToJson child]

theorem numberless_itemsToJson :
    (items : List (Option Snapshot)) → ∀ v ∈ itemsToJson items, Numberless v
  | [] => by simp [itemsToJson]
  | child :: rest => by
    rw [itemsToJson, List.forall_mem_cons]
    exact ⟨numberless_childToJson child, numberless_itemsToJson rest⟩

theorem numberless_childToJson : (child : Option Snapshot) → Numberless (childToJson child)
  | none => by
    rw [childToJson]
    exact .null
  | some s => by
    rw [childToJson]
    exact numberless_toJson s

end

/-- The decoder finds the snapshot again. -/
theorem toJson_injective : Function.Injective toJson := by
  intro s t h
  have hs := ((plain_toJson s).decode_reordered_iff reorders_id).2 (spells_toJson s)
  have ht := ((plain_toJson t).decode_reordered_iff reorders_id).2 (spells_toJson t)
  rw [h, ht] at hs
  exact (Except.ok.inj hs).symm

theorem text_injective : Function.Injective text := fun s t h =>
  toJson_injective ((numberless_toJson s).compact_inj (numberless_toJson t) h)

end Snapshot

namespace Forest

variable {f g : Forest}

/-- **The text of a snapshot determines it**, whatever the names of kinds and slots are and however
    deep the snapshot is. So what is alive and unwinds has the same snapshot as another such node, of
    the same forest or not, exactly if the bytes of the two texts are the same. -/
theorem Reachable.snapshots_eq_iff_texts_eq (hf : Reachable f) (hg : Reachable g) :
    Function.Injective Snapshot.text
      ∧ ∀ n m, f.isLive n → f.Unwinds n → g.isLive m → g.Unwinds m →
        ∃ s t, f.snapshot? n = some s ∧ g.snapshot? m = some t
          ∧ (s = t ↔ s.text.toUTF8 = t.text.toUTF8) := by
  refine ⟨Snapshot.text_injective, fun n m hn hunwinds hm hunwinds' => ?_⟩
  obtain ⟨s, hs⟩ :=
    Option.isSome_iff_exists.1 ((isSome_snapshot?_iff hf.heldAlive).2 ⟨hn, hunwinds⟩)
  obtain ⟨t, ht⟩ :=
    Option.isSome_iff_exists.1 ((isSome_snapshot?_iff hg.heldAlive).2 ⟨hm, hunwinds'⟩)
  refine ⟨s, t, hs, ht, ?_⟩
  rw [String.toUTF8_eq_toByteArray, String.toUTF8_eq_toByteArray, String.toByteArray_inj,
    Snapshot.text_injective.eq_iff]

/-- Three nodes of a kind whose name and slots are full of characters that are escaped, each with a
    leaf: the first two have it in one slot, the third in the other. -/
def escapedNames : List Edit :=
  let spec := Catalogue.spec (.root ⟨"escaped", "\"\x7d\\\n\u0001", ["\",\"", "\\"]⟩) "" false true
  let leaf := Catalogue.spec (.root ⟨"leaf", "\\\"", []⟩) "" false true
  [.create spec, .create leaf, .create spec, .create leaf, .create spec, .create leaf,
    .fillSlot 0 0 (some 1), .fillSlot 2 0 (some 3), .fillSlot 4 1 (some 5)]

theorem Reachable.snapshots_eq_iff_texts_eq_escapedNames :
    ∃ s t, (empty.runAll escapedNames).snapshot? 0 = some s
      ∧ (empty.runAll escapedNames).snapshot? 2 = some s
      ∧ (empty.runAll escapedNames).snapshot? 4 = some t
      ∧ s.text.toUTF8 ≠ t.text.toUTF8 := by
  have hf := Reachable.start.runAll escapedNames
  have hranked : (empty.runAll escapedNames).RankedBy ([1, 0, 1, 0, 1, 0].getD · 0) := by
    decide +kernel
  have hunwinds := (hranked.acyclic hf.heldAlive).unwinds
  obtain ⟨-, htexts⟩ := Reachable.snapshots_eq_iff_texts_eq hf hf
  obtain ⟨s, t, hs, ht, hiff⟩ :=
    htexts 0 4 (by decide +kernel) (hunwinds 0) (by decide +kernel) (hunwinds 4)
  have hsame : (empty.runAll escapedNames).snapshot? 2 = (empty.runAll escapedNames).snapshot? 0 := by
    decide +kernel
  have hapart : (empty.runAll escapedNames).snapshot? 0
      ≠ (empty.runAll escapedNames).snapshot? 4 := by
    decide +kernel
  refine ⟨s, t, hs, hsame.trans hs, ht, fun hbytes => hapart ?_⟩
  rw [hs, ht, hiff.2 hbytes]

end Forest

end NodeForest
