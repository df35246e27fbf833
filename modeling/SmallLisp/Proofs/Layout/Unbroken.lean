import SmallLisp.Proofs.Layout.Flat
import SmallLisp.Proofs.Text.Numeral

namespace SmallLisp

namespace Text

/-- A text with a space in the place of each newline and the spaces behind it. -/
def unbroken : List Char → List Char
  | [] => []
  | c :: cs => if c = '\n' then ' ' :: unbroken (cs.dropWhile (· = ' ')) else c :: unbroken cs
termination_by cs => cs.length
decreasing_by
  · exact Nat.lt_succ_of_le (List.dropWhile_suffix _).length_le
  · exact Nat.lt_succ_self _

theorem unbroken_append {cs : List Char} (h : '\n' ∉ cs) (rest : List Char) :
    unbroken (cs ++ rest) = cs ++ unbroken rest := by
  induction cs with
  | nil => rfl
  | cons c cs ih =>
      obtain ⟨hc, hcs⟩ := List.ne_and_not_mem_of_not_mem_cons h
      rw [List.cons_append, unbroken, if_neg (Ne.symm hc), ih hcs, List.cons_append]

theorem unbroken_margin (n : Nat) {cs : List Char} (h : ' ' ∉ cs.head?) :
    unbroken ('\n' :: (List.replicate n ' ' ++ cs)) = ' ' :: unbroken cs := by
  rw [unbroken, if_pos rfl, List.dropWhile_append_of_pos (by simp)]
  cases cs with
  | nil => rfl
  | cons c cs =>
      rw [List.dropWhile_cons_of_neg (by simpa using h)]

structure Solid (s : String) : Prop where
  nonempty : s ≠ ""
  unbroken : '\n' ∉ s.toList
  head : ' ' ∉ s.toList.head?

structure JoinsAs (cs : List Char) (s : String) : Prop where
  head : ∃ c, cs.head? = some c ∧ c ≠ ' '
  joined : ∀ rest, Text.unbroken (cs ++ rest) = s.toList ++ Text.unbroken rest

theorem JoinsAs.head_append {cs : List Char} {s : String} (h : JoinsAs cs s) (rest : List Char) :
    ' ' ∉ (cs ++ rest).head? := by
  obtain ⟨c, hc, hne⟩ := h.head
  simpa [List.head?_append, hc] using hne

theorem Solid.joinsAs {s : String} (h : Solid s) : JoinsAs s.toList s := by
  obtain ⟨c, cs, hcs⟩ := List.exists_cons_of_ne_nil (mt String.toList_eq_nil_iff.mp h.nonempty)
  have hhead := h.head
  rw [hcs] at hhead
  exact ⟨⟨c, by rw [hcs]; rfl, by simpa using hhead⟩, unbroken_append h.unbroken⟩

theorem JoinsAs.bracketed {opening closing : Char} (ho : opening ≠ '\n' ∧ opening ≠ ' ')
    (hc : closing ≠ '\n') {cs : List Char} {s : String}
    (h : ∀ rest, unbroken (cs ++ rest) = s.toList ++ unbroken rest) :
    JoinsAs (opening :: (cs ++ [closing])) (Text.bracketed opening closing s) where
  head := ⟨opening, rfl, ho.2⟩
  joined rest := by
    have hclosing : unbroken (closing :: rest) = closing :: unbroken rest := by
      rw [unbroken, if_neg hc]
    rw [List.cons_append, unbroken, if_neg ho.1, List.append_assoc, h, List.singleton_append, hclosing]
    simp [Text.bracketed]

theorem Solid.append {s t : String} (hs : Solid s) (ht : '\n' ∉ t.toList) : Solid (s ++ t) where
  nonempty h := hs.nonempty (String.append_eq_empty_iff.mp h).1
  unbroken := by
    rw [String.toList_append]
    exact List.not_mem_append hs.unbroken ht
  head := by
    rw [String.toList_append]
    exact hs.joinsAs.head_append t.toList

theorem solid_natural (n : Nat) : Solid (toString n) := by
  have htext : (toString n).toList = Nat.toDigits 10 n := Nat.toList_repr
  have hdigits : ∀ c ∈ (toString n).toList, c.isDigit := fun c hc =>
    isDigit_of_mem_toDigits (htext ▸ hc)
  refine ⟨fun h => ?_, fun h => ?_, fun h => ?_⟩
  · exact Nat.toDigits_ne_nil (htext.symm.trans (String.toList_eq_nil_iff.mpr h))
  · exact absurd (hdigits _ h) (by decide)
  · exact absurd (hdigits _ (List.mem_of_mem_head? h)) (by decide)

theorem solid_integer (n : Int) : Solid (toString n) := by
  match n with
  | .ofNat n => exact solid_natural n
  | .negSucc n =>
      have hsign : Solid "-" := ⟨by decide, by decide, by decide⟩
      exact hsign.append (solid_natural (n + 1)).unbroken

end Text

open Text (JoinsAs unbroken)

namespace Doc

inductive Solid : Doc → Prop
  | word {text : String} {isName : Bool} : Text.Solid text → Solid (.word text isName)
  | list {items : List Doc} : (∀ d ∈ items, Solid d) → Solid (.list items)
  | map {entries : List (Doc × Doc)} : (∀ e ∈ entries, Solid e.1) → (∀ e ∈ entries, Solid e.2) →
      Solid (.map entries)

theorem LaidItems.joined {ds : List Doc} (hds : ∀ d ∈ ds, ∀ cs, d.Laid cs → JoinsAs cs d.flat)
    {cs : List Char} (h : LaidItems false ds cs) (rest : List Char) :
    unbroken (cs ++ rest) = (String.join (ds.map fun d => " " ++ d.flat)).toList ++ unbroken rest := by
  induction ds generalizing cs with
  | nil =>
      cases h
      rfl
  | cons d ds ih =>
      obtain ⟨hd, hds⟩ := List.forall_mem_cons.mp hds
      cases h with
      | @cons _ _ _ gap cs' behind hgap hlaid hitems =>
          have hd := hd _ hlaid
          have hgapped : unbroken (gap ++ (cs' ++ (behind ++ rest))) =
              ' ' :: unbroken (cs' ++ (behind ++ rest)) := by
            cases hgap with
            | space => exact Text.unbroken_append (by simp) _
            | line n => exact Text.unbroken_margin n (hd.head_append _)
          rw [List.append_assoc, List.append_assoc, hgapped, hd.joined, ih hds hitems]
          simp [String.toList_join]

theorem LaidItems.joined_first {ds : List Doc} (hds : ∀ d ∈ ds, ∀ cs, d.Laid cs → JoinsAs cs d.flat)
    {cs : List Char} (h : LaidItems true ds cs) (rest : List Char) :
    unbroken (cs ++ rest) = (Text.spaced (ds.map flat)).toList ++ unbroken rest := by
  cases h with
  | nil => rfl
  | @cons _ d ds gap cs' behind hgap hlaid hitems =>
      obtain ⟨hd, hds⟩ := List.forall_mem_cons.mp hds
      cases hgap with
      | first =>
          rw [List.nil_append, List.append_assoc, (hd _ hlaid).joined, hitems.joined hds, List.map_cons,
            Text.spaced_cons, String.toList_append, List.append_assoc, List.map_map]
          rfl

theorem Solid.joinsAs {d : Doc} (hd : d.Solid) {cs : List Char} (h : d.Laid cs) : JoinsAs cs d.flat := by
  induction hd generalizing cs with
  | word htext =>
      cases h
      exact htext.joinsAs
  | list _ ih =>
      cases h with
      | list hitems =>
          rw [flat, flats_eq_map]
          exact .bracketed (by decide) (by decide) (hitems.joined_first fun d hd cs => ih d hd)
  | @map entries _ _ ihkeys ihvalues =>
      cases h with
      | map hitems =>
          rw [flat, entryFlats_eq_map]
          refine .bracketed (by decide) (by decide) (hitems.joined_first fun d hd cs => ?_)
          obtain ⟨e, he, hd⟩ := List.mem_flatMap.mp hd
          rcases List.mem_pair.mp hd with rfl | rfl
          · exact ihkeys e he
          · exact ihvalues e he

end Doc

namespace Expr

inductive Solid : Expr → Prop
  | nil : Solid .nil
  | int {v : Int64} {p : Provenance} : Solid (.int v p)
  | symbol {n : String} {p : Provenance} : Text.Solid n → Solid (.symbol n p)
  | list {xs : List Expr} {p : Provenance} : (∀ x ∈ xs, Solid x) → Solid (.list xs p)
  | map {es : List (Expr × Expr)} {p : Provenance} : (∀ e ∈ es, Solid e.1) → (∀ e ∈ es, Solid e.2) →
      Solid (.map es p)
  | function {x : String} {xp p : Provenance} {b : Expr} {env : Option Bindings} :
      Text.Solid x → Solid b → Solid (.function x xp b env p)
  | expander {x : String} {xp p : Provenance} {b : Expr} {env : Option Bindings} :
      Text.Solid x → Solid b → Solid (.expander x xp b env p)
  | special {k : Special} {p : Provenance} : Solid (.special k p)
  | primitive {o : Primitive} {p : Provenance} : Text.Solid o.name → Solid (.primitive o p)

theorem solid_name (k : Special) : Text.Solid k.name := by
  cases k <;> exact ⟨by decide, by decide, by decide⟩

theorem solid_lambda {x : String} (hx : Text.Solid x) {d : Doc} (hd : d.Solid) :
    Doc.Solid (.list [.word Special.lambda.name true, .word x true, d]) := by
  refine .list ?_
  simp only [List.forall_mem_cons]
  exact ⟨.word (solid_name .lambda), .word hx, hd, by simp⟩

theorem Solid.doc {e : Expr} (he : e.Solid) : e.doc.Solid := by
  induction he with
  | nil => exact .word ⟨by decide, by decide, by decide⟩
  | int => exact .word (Text.solid_integer _)
  | symbol hn => exact .word hn
  | special => exact .word (solid_name _)
  | primitive ho =>
      have hopening : Text.Solid "#<primitive " := ⟨by decide, by decide, by decide⟩
      exact .word ((hopening.append ho.unbroken).append (by decide))
  | function hx _ ih => exact solid_lambda hx ih
  | expander hx _ ih =>
      refine .list (List.forall_mem_cons.mpr ⟨.word ⟨by decide, by decide, by decide⟩, ?_⟩)
      exact List.forall_mem_singleton.mpr (solid_lambda hx ih)
  | list _ ih =>
      rw [Expr.doc, docs_eq_map]
      exact .list (List.forall_mem_map.mpr ih)
  | @map es _ _ _ ihkeys ihvalues =>
      have hentries : ∀ d ∈ (Text.sortByKey (entryDocs es)).map (·.2), ∃ e ∈ es, d = (e.1.doc, e.2.doc) := by
        rw [entryDocs_eq_map, List.forall_mem_map]
        intro d hd
        obtain ⟨e, he, rfl⟩ := List.mem_map.mp ((List.mergeSort_perm _ _).mem_iff.mp hd)
        exact ⟨e, he, rfl⟩
      refine .map (fun d hd => ?_) fun d hd => ?_
      · obtain ⟨e, he, rfl⟩ := hentries d hd
        exact ihkeys e he
      · obtain ⟨e, he, rfl⟩ := hentries d hd
        exact ihvalues e he

end Expr

namespace Page

theorem text_write_blank (s : String) : (blank.write s).text = s ++ "\n" := by
  simp [write, blank, text, Stack.empty, Stack.bottomUp]

theorem maxWidth_write_blank (s : String) : (blank.write s).maxWidth = s.utf8ByteSize := by
  simp [write, blank, maxWidth, Stack.empty]

end Page

namespace Printer

theorem layout_of_fits {p : Printer} (hp : ∀ r ∈ p.rules, 0 < r.priority) {d : Doc}
    (hd : d.flat.utf8ByteSize ≤ p.width) : p.layout d = Page.blank.write d.flat := by
  rw [layout, lastRound, fitting, put_zero hp, Page.maxWidth_write_blank]
  exact if_pos hd

/-- Line breaking does not change what is printed: each newline stands, with the margin behind it, where
the text on one line has a space, and a standard printer breaks nothing that fits on one line. -/
theorem line_breaks_are_spaces (e : Expr) :
    (e.Solid → ∀ p : Printer, (∀ r ∈ p.rules, 0 < r.inline) →
      ∃ cs, (p.format e).toList = cs ++ ['\n'] ∧ unbroken cs = e.text.toList) ∧
    ∀ width, e.text.utf8ByteSize ≤ width → (new width).format e = e.text ++ "\n" := by
  constructor
  · intro he p hp
    obtain ⟨cs, hlaid, hcs⟩ := laid_format hp e
    have hjoined := (he.doc.joinsAs hlaid).joined []
    rw [List.append_nil, unbroken, List.append_nil, Expr.flat_doc] at hjoined
    exact ⟨cs, hcs, hjoined⟩
  · intro width hwidth
    have hflat : e.doc.flat.utf8ByteSize ≤ (new width).width := by rwa [Expr.flat_doc]
    rw [format, layout_of_fits priority_standard hflat, Page.text_write_blank, Expr.flat_doc]

/-- A call with a list and a map in it, at a width that breaks the list, and at the width of its text. -/
theorem line_breaks_are_spaces_of_call :
    let f : Expr := .symbol "f" []
    let e : Expr := .list [f, .list [f, .int 10 []] [], .map [(f, .primitive .list [])] []] []
    e.text = "(f (f 10) \x7bf #<primitive list>\x7d)" ∧
      (new 31).format e = "(f\n   (f 10)\n   \x7bf #<primitive list>\x7d)\n" ∧
      (∃ cs, ((new 31).format e).toList = cs ++ ['\n'] ∧ unbroken cs = e.text.toList) ∧
      (new 32).format e = "(f (f 10) \x7bf #<primitive list>\x7d)\n" := by
  intro f e
  have hname : Text.Solid "f" := ⟨by decide, by decide, by decide⟩
  have hf : f.Solid := .symbol hname
  have hcall : Expr.Solid (.list [f, .int 10 []] []) := by
    refine .list ?_
    simp only [List.forall_mem_cons]
    exact ⟨hf, .int, by simp⟩
  have hmap : Expr.Solid (.map [(f, .primitive .list [])] []) :=
    .map (List.forall_mem_singleton.mpr hf)
      (List.forall_mem_singleton.mpr (.primitive ⟨by decide, by decide, by decide⟩))
  have he : e.Solid := by
    refine .list ?_
    simp only [List.forall_mem_cons]
    exact ⟨hf, hcall, hmap, by simp⟩
  have htext : e.text = "(f (f 10) \x7bf #<primitive list>\x7d)" := by decide +kernel
  refine ⟨htext, by decide +kernel, (line_breaks_are_spaces e).1 he (new 31) inline_standard, ?_⟩
  have hwidth : e.text.utf8ByteSize ≤ 32 := by
    rw [htext]
    decide
  rw [(line_breaks_are_spaces e).2 32 hwidth, htext]
  rfl

end Printer

end SmallLisp
