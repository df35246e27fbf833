import SmallLisp.Intern
import Mathlib.Data.List.Dedup
import Mathlib.Data.List.Perm.Basic
import Mathlib.Logic.Function.Basic
import Mathlib.Logic.Relation

namespace SmallLisp

namespace InternTable

variable {t : InternTable} {text other : String} {id : InternId}

structure Consistent (t : InternTable) : Prop where
  nodup : t.texts.toList.Nodup
  lookup_iff {text : String} {number : UInt32} : t.numbers.lookup text = some number ↔
    ∃ i : Nat, t.texts[i]? = some text ∧ UInt32.ofNat i = number

theorem consistent_new (stamp : UInt32) : (new stamp).Consistent where
  nodup := List.nodup_nil
  lookup_iff := by simp [new]

theorem lookup?_eq_some_iff :
    t.lookup? text = some id ↔ id.table = t.stamp ∧ t.numbers.lookup text = some id.index := by
  obtain ⟨stamp, number⟩ := id
  simp only [lookup?, Option.map_eq_some_iff, InternId.mk.injEq]
  constructor
  · rintro ⟨n, hn, rfl, rfl⟩
    exact ⟨rfl, hn⟩
  · rintro ⟨rfl, hn⟩
    exact ⟨number, hn, rfl, rfl⟩

theorem enroll_cases (t : InternTable) (text : String) :
    (∃ id, t.lookup? text = some id ∧ t.enroll text = (id, t)) ∨
      (t.lookup? text = none ∧ t.enroll text = (⟨t.stamp, UInt32.ofNat t.size⟩,
        { t with
          numbers := (text, UInt32.ofNat t.size) :: t.numbers
          texts := t.texts.push text })) := by
  unfold enroll
  split
  · next id h => exact .inl ⟨id, h, rfl⟩
  · next h => exact .inr ⟨h, rfl⟩

theorem lookup?_enroll (t : InternTable) (text other : String) :
    (t.enroll text).2.lookup? other =
      if other = text then some (t.enroll text).1 else t.lookup? other := by
  rcases enroll_cases t text with ⟨id, hid, henroll⟩ | ⟨hnone, henroll⟩
  · rw [henroll]
    split
    · next heq => rw [heq, hid]
    · rfl
  · rw [henroll]
    by_cases heq : other = text
    · simp [lookup?, heq]
    · have hne : (other == text) = false := by simpa using heq
      simp [lookup?, List.lookup_cons, heq, hne]

theorem lookup?_enroll_of_some (h : t.lookup? other = some id) (text : String) :
    (t.enroll text).2.lookup? other = some id := by
  rcases enroll_cases t text with ⟨_, _, henroll⟩ | ⟨hnone, henroll⟩
  · rwa [henroll]
  · have hne : other ≠ text := by
      rintro rfl
      simp [hnone] at h
    rw [lookup?_enroll, if_neg hne, h]

theorem Consistent.getElem?_ne (h : t.Consistent) (hnone : t.lookup? text = none) (i : Nat) :
    t.texts[i]? ≠ some text := by
  intro hi
  have hlookup : t.numbers.lookup text = some (UInt32.ofNat i) := h.lookup_iff.mpr ⟨i, hi, rfl⟩
  simp [lookup?, hlookup] at hnone

theorem Consistent.enroll (h : t.Consistent) (text : String) : (t.enroll text).2.Consistent := by
  rcases enroll_cases t text with ⟨id, _, henroll⟩ | ⟨hnone, henroll⟩
  · rwa [henroll]
  · have hfresh := h.getElem?_ne hnone
    rw [henroll]
    constructor
    · rw [Array.toList_push, List.nodup_append]
      refine ⟨h.nodup, List.nodup_singleton text, ?_⟩
      rintro other hother _ hmem rfl
      obtain rfl := List.mem_singleton.mp hmem
      obtain ⟨i, hi⟩ := List.getElem?_of_mem hother
      exact hfresh i (by simpa using hi)
    · intro other number
      simp only [List.lookup_cons, Array.getElem?_push]
      by_cases heq : other = text
      · subst heq
        simp only [beq_self_eq_true, Option.some.injEq]
        constructor
        · intro hnumber
          exact ⟨t.size, by simp [size], hnumber⟩
        · rintro ⟨i, hi, rfl⟩
          split at hi
          · next hsize => rw [hsize, size]
          · exact absurd hi (hfresh i)
      · have hne : (other == text) = false := by simpa using heq
        simp only [hne, h.lookup_iff]
        constructor
        · rintro ⟨i, hi, hnumber⟩
          obtain ⟨hlt, _⟩ := Array.getElem?_eq_some_iff.mp hi
          exact ⟨i, by rwa [if_neg (Nat.ne_of_lt hlt)], hnumber⟩
        · rintro ⟨i, hi, hnumber⟩
          split at hi
          · exact absurd (Option.some.inj hi).symm heq
          · exact ⟨i, hi, hnumber⟩

theorem Consistent.resolve?_iff (h : t.Consistent) (hsize : t.size ≤ UInt32.size) :
    t.resolve? id = some text ↔ t.lookup? text = some id := by
  simp only [resolve?, Option.ite_none_right_eq_some, lookup?_eq_some_iff, h.lookup_iff]
  constructor
  · rintro ⟨hstamp, htext⟩
    exact ⟨hstamp, id.index.toNat, htext, UInt32.ofNat_toNat⟩
  · rintro ⟨hstamp, i, htext, hindex⟩
    obtain ⟨hlt, _⟩ := Array.getElem?_eq_some_iff.mp htext
    have hi : id.index.toNat = i := by
      rw [← hindex]
      exact UInt32.toNat_ofNat_of_lt' (Nat.lt_of_lt_of_le hlt hsize)
    exact ⟨hstamp, by rwa [hi]⟩

theorem Consistent.mem_texts_iff (h : t.Consistent) :
    text ∈ t.texts.toList ↔ ∃ id, t.lookup? text = some id := by
  constructor
  · intro hmem
    obtain ⟨i, hi⟩ := List.getElem?_of_mem hmem
    refine ⟨⟨t.stamp, UInt32.ofNat i⟩, lookup?_eq_some_iff.mpr ⟨rfl, ?_⟩⟩
    exact h.lookup_iff.mpr ⟨i, by simpa using hi, rfl⟩
  · rintro ⟨id, hid⟩
    obtain ⟨i, hi, _⟩ := h.lookup_iff.mp (lookup?_eq_some_iff.mp hid).2
    exact List.mem_of_getElem? (by simpa using hi)

end InternTable

structure InternCall (κ : Type) where
  caller : κ
  text : String
  id : InternId

/-- A table, the texts that callers have looked up and not found, and the calls that have returned, the
last one first. -/
structure Interning (κ : Type) where
  table : InternTable
  missed : κ → Option String
  returned : List (InternCall κ)

namespace Interning

variable {κ : Type}

def start (stamp : UInt32) : Interning κ := ⟨.new stamp, fun _ => none, []⟩

def interned (s : Interning κ) : List String := (s.returned.map InternCall.text).dedup

structure Sound (s : Interning κ) : Prop where
  consistent : s.table.Consistent
  lookup?_iff {text : String} {id : InternId} :
    s.table.lookup? text = some id ↔ ∃ a ∈ s.returned, a.text = text ∧ a.id = id

theorem sound_start (stamp : UInt32) : (start stamp : Interning κ).Sound where
  consistent := InternTable.consistent_new stamp
  lookup?_iff := by simp [start, InternTable.lookup?, InternTable.new]

theorem Sound.mem_interned_iff {s : Interning κ} (h : s.Sound) {text : String} :
    text ∈ s.interned ↔ text ∈ s.table.texts.toList := by
  simp only [interned, List.mem_dedup, List.mem_map, h.consistent.mem_texts_iff, h.lookup?_iff]
  constructor
  · rintro ⟨a, ha, rfl⟩
    exact ⟨a.id, a, ha, rfl, rfl⟩
  · rintro ⟨id, a, ha, htext, _⟩
    exact ⟨a, ha, htext⟩

theorem Sound.size_eq {s : Interning κ} (h : s.Sound) : s.table.size = s.interned.length := by
  have hperm : s.table.texts.toList.Perm s.interned :=
    (List.perm_ext_iff_of_nodup h.consistent.nodup (List.nodup_dedup _)).mpr fun _ =>
      h.mem_interned_iff.symm
  exact hperm.length_eq

variable [DecidableEq κ]

/-- What one caller does while no other can intervene. -/
inductive Step : Interning κ → Interning κ → Prop
  | found {s : Interning κ} {caller : κ} {text : String} {id : InternId} :
      s.missed caller = none → s.table.lookup? text = some id →
      Step s { s with returned := ⟨caller, text, id⟩ :: s.returned }
  | missing {s : Interning κ} {caller : κ} {text : String} :
      s.missed caller = none → s.table.lookup? text = none →
      Step s { s with missed := Function.update s.missed caller (some text) }
  | enrolled {s : Interning κ} {caller : κ} {text : String} :
      s.missed caller = some text →
      Step s {
        table := (s.table.enroll text).2
        missed := Function.update s.missed caller none
        returned := ⟨caller, text, (s.table.enroll text).1⟩ :: s.returned }

abbrev Steps : Interning κ → Interning κ → Prop := Relation.ReflTransGen Step

theorem steps_intern {s : Interning κ} {caller : κ} (h : s.missed caller = none) (text : String) :
    Steps s {
      table := (s.table.intern text).2
      missed := s.missed
      returned := ⟨caller, text, (s.table.intern text).1⟩ :: s.returned } := by
  unfold InternTable.intern
  split
  · next id hid => exact .single (.found h hid)
  · next hnone =>
      have hmissed : Function.update (Function.update s.missed caller (some text)) caller none =
          s.missed := by
        rw [Function.update_idem, ← h, Function.update_eq_self]
      have henrolled := @Step.enrolled κ _ { s with
        missed := Function.update s.missed caller (some text) } caller text (Function.update_self ..)
      rw [hmissed] at henrolled
      exact .tail (.single (.missing h hnone)) henrolled

theorem Sound.step {s u : Interning κ} (h : s.Sound) (hstep : Step s u) : u.Sound := by
  cases hstep with
  | @found caller text id _ hid =>
      refine ⟨h.consistent, fun {other} {id'} => ?_⟩
      simp only [List.exists_mem_cons_iff, h.lookup?_iff]
      refine ⟨.inr, ?_⟩
      rintro (⟨rfl, rfl⟩ | hold)
      · exact h.lookup?_iff.mp hid
      · exact hold
  | missing _ _ => exact ⟨h.consistent, h.lookup?_iff⟩
  | @enrolled caller text _ =>
      refine ⟨h.consistent.enroll text, fun {other} {id'} => ?_⟩
      simp only [List.exists_mem_cons_iff]
      constructor
      · intro hlookup
        rw [InternTable.lookup?_enroll] at hlookup
        split at hlookup
        · next heq => exact .inl ⟨heq.symm, Option.some.inj hlookup⟩
        · exact .inr (h.lookup?_iff.mp hlookup)
      · rintro (⟨rfl, rfl⟩ | hold)
        · rw [InternTable.lookup?_enroll, if_pos rfl]
        · exact InternTable.lookup?_enroll_of_some (h.lookup?_iff.mpr hold) text

theorem Sound.steps {s u : Interning κ} (h : s.Sound) (hsteps : Steps s u) : u.Sound := by
  induction hsteps with
  | refl => exact h
  | tail _ hstep ih => exact ih.step hstep

theorem returned_of_step {s u : Interning κ} (hstep : Step s u) : s.returned ⊆ u.returned := by
  cases hstep with
  | found _ _ => exact List.subset_cons_self _ _
  | missing _ _ => exact List.Subset.refl _
  | enrolled _ => exact List.subset_cons_self _ _

theorem returned_of_steps {s u : Interning κ} (hsteps : Steps s u) : s.returned ⊆ u.returned := by
  induction hsteps with
  | refl => exact List.Subset.refl _
  | tail _ hstep ih => exact List.Subset.trans ih (returned_of_step hstep)

/-- Whatever callers intern in whatever order, if there are no more texts than numbers: calls have one
id just if they have one text; an id gives back the text of its call from then on; the texts that can be
looked up are those of the calls, with their ids; the size is the number of these texts; and no other id
gives a text. -/
theorem ids_and_texts_correspond (stamp : UInt32) {s u : Interning κ} (hs : Steps (start stamp) s)
    (hu : Steps s u) (hbound : u.interned.length ≤ UInt32.size) :
    (∀ a ∈ u.returned, ∀ b ∈ u.returned, a.id = b.id ↔ a.text = b.text) ∧
      (∀ a ∈ s.returned, u.table.resolve? a.id = some a.text) ∧
      (∀ text id, u.table.lookup? text = some id ↔ ∃ a ∈ u.returned, a.text = text ∧ a.id = id) ∧
      u.table.size = u.interned.length ∧
      ∀ id, u.table.resolve? id = none ↔ ∀ a ∈ u.returned, a.id ≠ id := by
  have hsound : u.Sound := ((sound_start stamp).steps hs).steps hu
  have hresolve {id : InternId} {text : String} :
      u.table.resolve? id = some text ↔ u.table.lookup? text = some id :=
    hsound.consistent.resolve?_iff (hsound.size_eq ▸ hbound)
  have hlookup : ∀ a ∈ u.returned, u.table.lookup? a.text = some a.id := fun a ha =>
    hsound.lookup?_iff.mpr ⟨a, ha, rfl, rfl⟩
  refine ⟨fun a ha b hb => ?_, fun a ha => ?_, fun _ _ => hsound.lookup?_iff, hsound.size_eq, fun id => ?_⟩
  · constructor
    · intro hid
      have hab := (hresolve.mpr (hlookup a ha)).symm.trans (hid ▸ hresolve.mpr (hlookup b hb))
      exact Option.some.inj hab
    · intro htext
      have hab := (hlookup a ha).symm.trans (htext ▸ hlookup b hb)
      exact Option.some.inj hab
  · exact hresolve.mpr (hlookup a (returned_of_steps hu ha))
  · constructor
    · rintro hnone a ha rfl
      simp [hresolve.mpr (hlookup a ha)] at hnone
    · intro hnew
      rw [Option.eq_none_iff_forall_ne_some]
      intro text htext
      obtain ⟨a, ha, _, rfl⟩ := hsound.lookup?_iff.mp (hresolve.mp htext)
      exact hnew a ha rfl

theorem ids_and_texts_correspond_of_race :
    -- Both callers miss the same text; the second one to enroll it finds it, and then interns another.
    ∃ s u : Interning Bool, Steps (start 7) s ∧ Steps s u ∧ u.interned.length ≤ UInt32.size ∧
      s.returned = [⟨true, "x", ⟨7, 0⟩⟩, ⟨false, "x", ⟨7, 0⟩⟩] ∧
      u.returned = ⟨true, "y", ⟨7, 1⟩⟩ :: s.returned ∧
      u.table.resolve? ⟨7, 0⟩ = some "x" ∧ u.table.resolve? ⟨7, 2⟩ = none := by
  have hs : Steps (start 7 : Interning Bool) _ :=
    (((Relation.ReflTransGen.single (@Step.missing _ _ _ false "x" rfl rfl)).tail
      (@Step.missing _ _ _ true "x" rfl rfl)).tail
        (@Step.enrolled _ _ _ false "x" rfl)).tail (@Step.enrolled _ _ _ true "x" rfl)
  obtain ⟨-, hresolve, -, -, hnone⟩ :=
    ids_and_texts_correspond 7 hs (@steps_intern _ _ _ true rfl "y") (by decide)
  refine ⟨_, _, hs, @steps_intern _ _ _ true rfl "y", by decide, rfl, rfl,
    hresolve ⟨true, "x", ⟨7, 0⟩⟩ (List.mem_of_mem_head? rfl), (hnone ⟨7, 2⟩).mpr ?_⟩
  decide

end Interning

end SmallLisp
