import SmallLisp.Proofs.Layout.Laid
import Mathlib.Data.List.Basic

namespace SmallLisp

namespace Text

theorem spaced_cons (s : String) (ss : List String) :
    spaced (s :: ss) = s ++ String.join (ss.map (" " ++ ·)) := by
  induction ss generalizing s with
  | nil => simp
  | cons t ss ih => rw [spaced_cons_cons, ih, List.map_cons, String.join_cons, String.append_assoc,
      String.append_assoc]

end Text

namespace Doc

theorem induction {P : Doc → Prop} (word : ∀ text isName, P (.word text isName))
    (list : ∀ items, (∀ d ∈ items, P d) → P (.list items))
    (map : ∀ entries, (∀ e ∈ entries, P e.1 ∧ P e.2) → P (.map entries)) (d : Doc) : P d :=
  @Doc.rec P (fun ds => ∀ d ∈ ds, P d) (fun es => ∀ e ∈ es, P e.1 ∧ P e.2) (fun e => P e.1 ∧ P e.2)
    word list map (by simp) (fun _ _ hd hds => List.forall_mem_cons.mpr ⟨hd, hds⟩) (by simp)
    (fun _ _ he hes => List.forall_mem_cons.mpr ⟨he, hes⟩) (fun _ _ hk hv => ⟨hk, hv⟩) d

end Doc

namespace Text

theorem sortByKey_map {α β : Type} (f : α → β) (pairs : List (String × α)) :
    sortByKey (pairs.map fun p => (p.1, f p.2)) = (sortByKey pairs).map fun p => (p.1, f p.2) :=
  Eq.symm (List.map_mergeSort (f := fun p : String × α => (p.1, f p.2)) fun _ _ _ _ => rfl)

end Text

namespace Expr

open Text (sortByKey)

theorem entryFlats_sorted {es : List (Expr × Expr)}
    (h : ∀ e ∈ es, e.1.doc.flat = e.1.text ∧ e.2.doc.flat = e.2.text) :
    Doc.entryFlats ((sortByKey (entryDocs es)).map (·.2)) =
      (sortByKey (entryTexts es)).flatMap fun e => [e.1, e.2] := by
  -- The keys of a map are spelled by their documents, so it does not matter which of the two is sorted.
  have hkeys : ∀ d ∈ sortByKey (entryDocs es), d.2.1.flat = d.1 := by
    intro d hd
    have hmem := (List.mergeSort_perm _ _).mem_iff.mp hd
    rw [entryDocs_eq_map] at hmem
    obtain ⟨e, he, rfl⟩ := List.mem_map.mp hmem
    exact (h e he).1
  have hvalues : entryTexts es = (entryDocs es).map fun d => (d.1, d.2.2.flat) := by
    rw [entryTexts_eq_map, entryDocs_eq_map, List.map_map]
    exact List.map_congr_left fun e he => Prod.ext rfl (h e he).2.symm
  rw [hvalues, Text.sortByKey_map (fun d : Doc × Doc => d.2.flat), Doc.entryFlats_eq_map,
    List.flatMap_map, List.flatMap_map, List.map_flatMap]
  refine List.flatMap_congr fun d hd => ?_
  simp [hkeys d hd]

mutual

theorem flat_doc (e : Expr) : e.doc.flat = e.text := by
  match e with
  | .nil => rfl
  | .int v p => rfl
  | .symbol n p => rfl
  | .special k p => rfl
  | .primitive o p => rfl
  | .function x xp b env p => simp [doc, text, Doc.flat, Doc.flats, flat_doc b]
  | .expander x xp b env p => simp [doc, text, Doc.flat, Doc.flats, flat_doc b]
  | .list xs p => rw [doc, Doc.flat, flats_docs xs, text]
  | .map es p => rw [doc, Doc.flat, entryFlats_sorted (flat_entries es), text]

theorem flats_docs (xs : List Expr) : Doc.flats (docs xs) = texts xs := by
  match xs with
  | [] => rfl
  | x :: xs => rw [docs, Doc.flats, texts, flat_doc x, flats_docs xs]

theorem flat_entries (es : List (Expr × Expr)) :
    ∀ e ∈ es, e.1.doc.flat = e.1.text ∧ e.2.doc.flat = e.2.text := by
  match es with
  | [] => simp
  | (k, v) :: es => exact List.forall_mem_cons.mpr ⟨⟨flat_doc k, flat_doc v⟩, flat_entries es⟩

end

end Expr

namespace Page

@[simp] theorem write_write (p : Page) (s t : String) : (p.write s).write t = p.write (s ++ t) := by
  obtain ⟨indent, lines⟩ := p
  cases lines with
  | nil => rfl
  | cons line lines => simp [write, String.append_assoc]

end Page

namespace Printer

variable {p : Printer}

theorem roundFor_zero (width : Nat) (page : Page) (d : Doc) : roundFor width 0 page d = 0 :=
  ite_self 0

theorem breaks_zero_priorityAt {r : HeadRule} (hr : 0 < r.priority) (i : Nat) :
    breaks 0 (r.priorityAt i) = false := by
  unfold HeadRule.priorityAt
  split
  · rfl
  · simp [breaks, Nat.pos_iff_ne_zero.mp hr]

theorem breaks_zero_keyPriority (i : Nat) : breaks 0 (keyPriority i) = false := by
  unfold keyPriority
  split <;> rfl

theorem putItems_zero {r : HeadRule} (hr : 0 < r.priority) {ds : List Doc}
    (hds : ∀ d ∈ ds, ∀ page, put p 0 d page = page.write d.flat) (i : Nat) (page : Page) (s : String) :
    putItems p 0 r (i + 1) ds (page.write s) =
      page.write (s ++ String.join (ds.map fun d => " " ++ d.flat)) := by
  induction ds generalizing i s with
  | nil => simp [putItems]
  | cons d ds ih =>
      obtain ⟨hd, hds⟩ := List.forall_mem_cons.mp hds
      rw [putItems, breaks_zero_priorityAt hr]
      simp [place, hd, ih hds, String.append_assoc]

theorem putEntries_zero {es : List (Doc × Doc)}
    (hes : ∀ e ∈ es, (∀ page, put p 0 e.1 page = page.write e.1.flat) ∧
      ∀ page, put p 0 e.2 page = page.write e.2.flat) (i : Nat) (page : Page) (s : String) :
    putEntries p 0 (i + 1) es (page.write s) =
      page.write (s ++ String.join ((es.flatMap fun e => [e.1, e.2]).map fun d => " " ++ d.flat)) := by
  induction es generalizing i s with
  | nil => simp [putEntries]
  | cons e es ih =>
      obtain ⟨k, v⟩ := e
      obtain ⟨⟨hk, hv⟩, hes⟩ := List.forall_mem_cons.mp hes
      rw [putEntries, breaks_zero_keyPriority]
      simp [place, hk, hv, ih hes, String.append_assoc]

theorem put_zero (hp : ∀ r ∈ p.rules, 0 < r.priority) (d : Doc) :
    ∀ page, put p 0 d page = page.write d.flat := by
  induction d using Doc.induction with
  | word text isName => exact fun page => rfl
  | list items ih =>
      intro page
      rw [put]
      simp only [roundFor_zero]
      split
      · next r hfind =>
          have hr := hp r (List.mem_of_find?_eq_some hfind)
          cases items with
          | nil => simp [putItems, Doc.flat, Doc.flats, Text.bracketed]
          | cons d ds =>
              obtain ⟨hd, hds⟩ := List.forall_mem_cons.mp ih
              rw [putItems, breaks_zero_priorityAt hr]
              simp [place, hd, putItems_zero hr hds, Doc.flat, Doc.flats, Doc.flats_eq_map,
                Text.bracketed, Text.spaced_cons, String.append_assoc, Function.comp_def]
      · rfl
  | map entries ih =>
      intro page
      rw [put]
      simp only [roundFor_zero]
      cases entries with
      | nil => simp [putEntries, Doc.flat, Doc.entryFlats, Text.bracketed]
      | cons e es =>
          obtain ⟨k, v⟩ := e
          obtain ⟨⟨hk, hv⟩, hes⟩ := List.forall_mem_cons.mp ih
          rw [putEntries, breaks_zero_keyPriority]
          simp [place, hk, hv, putEntries_zero hes, Doc.flat, Doc.entryFlats, Doc.entryFlats_eq_map,
            Text.bracketed, Text.spaced_cons, String.append_assoc, Function.comp_def]

theorem priority_standard : ∀ r ∈ HeadRule.standard, 0 < r.priority := by
  decide

end Printer

end SmallLisp
