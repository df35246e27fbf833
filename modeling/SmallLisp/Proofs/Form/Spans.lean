import SmallLisp.Proofs.Form.Incremental
import SmallLisp.Proofs.Form.Ordered
import SmallLisp.Proofs.Source.Cover
import Mathlib.Data.List.Pairwise

namespace SmallLisp

open SmallLisp.Span (Ascending Reaches Cover Joins)

theorem Token.InOrder.ascending {ts : List Token} (h : InOrder ts) : Ascending (ts.map span) :=
  ⟨List.forall_mem_map.mpr h.covers, List.pairwise_map.mpr h.pairwise⟩

namespace Form

def places (f : Form) : List Span := f.tokens.map Token.span

def outline : Form → List Span
  | .int _ site => [site]
  | .symbol _ site => [site]
  | .group _ opener closer children => opener :: (children.map span ++ [closer])
  | .marked _ site operand => [site, operand.span]
  | .ascription site type value => [site, type.span, value.span]

theorem joins_outline (f : Form) : Joins f.span f.outline := by
  cases f with
  | int value site => exact Span.joins_self site
  | symbol text site => exact Span.joins_self site
  | group kind opener closer children =>
      have hlast : (outline (.group kind opener closer children)).getLast? = some closer :=
        List.getLast?_concat (l := opener :: children.map span)
      exact ⟨opener, rfl, closer, hlast, rfl⟩
  | marked mark site operand => exact ⟨site, rfl, operand.span, rfl, rfl⟩
  | ascription site type value => exact ⟨site, rfl, value.span, rfl, rfl⟩

theorem places_group (kind : Delimiter) (opener closer : Span) (children : List Form) :
    (group kind opener closer children).places = opener :: (children.flatMap places ++ [closer]) := by
  simp only [places, tokens, allTokens_eq_flatMap, List.map_cons, List.map_append, List.map_flatMap,
    List.map_nil]
  rfl

theorem cover_outline_of_parts {f : Form}
    (hparts : ∀ p ∈ f.parts, Ascending p.places → Reaches p.span p.places)
    (h : Ascending f.places) : Cover f.outline f.places := by
  cases f with
  | int value site => exact Span.cover_self [site]
  | symbol text site => exact Span.cover_self [site]
  | group kind opener closer children =>
      rw [places_group] at h ⊢
      have hchildren : Ascending (children.flatMap places) :=
        h.sublist (.cons _ (List.sublist_append_left _ _))
      exact .cons (Span.reaches_self opener)
        ((Span.cover_map hparts hchildren).append (Span.cover_self [closer]))
  | marked mark site operand =>
      have hplaces : (marked mark site operand).places = site :: [operand].flatMap places := by
        simp [places, tokens]
      rw [hplaces] at h ⊢
      exact .cons (Span.reaches_self site)
        (Span.cover_map hparts (h.sublist (List.sublist_cons_self _ _)))
  | ascription site type value =>
      have hplaces : (ascription site type value).places = site :: [type, value].flatMap places := by
        simp [places, tokens]
      rw [hplaces] at h ⊢
      have hread : ∀ p ∈ [type, value], Ascending p.places → Reaches p.span p.places := by
        simpa [parts, and_comm] using hparts
      exact .cons (Span.reaches_self site)
        (Span.cover_map hread (h.sublist (List.sublist_cons_self _ _)))

theorem reaches_places (f : Form) (h : Ascending f.places) : Reaches f.span f.places :=
  f.joins_outline.reaches
    (cover_outline_of_parts (fun p _ hp => reaches_places p hp) h) h
termination_by sizeOf f
decreasing_by exact sizeOf_lt_of_mem_parts ‹_›

theorem cover_outline {f : Form} (h : Ascending f.places) : Cover f.outline f.places :=
  cover_outline_of_parts (fun p _ => p.reaches_places) h

theorem cover_spans {fs : List Form} (h : Ascending (fs.flatMap places)) :
    Cover (fs.map span) (fs.flatMap places) :=
  Span.cover_map (fun f _ => f.reaches_places) h

def Apart (f g : Form) : Prop :=
  f.span.stop.offset ≤ g.span.start.offset ∨ g.span.stop.offset ≤ f.span.start.offset

instance : Std.Symm Apart := ⟨fun _ _ => Or.symm⟩

end Form

namespace Partial

def site : Partial → Span
  | .group _ opener _ => opener
  | .ascription site _ => site
  | .marked _ site => site

def forms : Partial → List Form
  | .group _ _ children => children.bottomUp
  | .ascription _ type => type.toList
  | .marked _ _ => []

def places (p : Partial) : List Span := p.tokens.map Token.span

def outline (p : Partial) : List Span := p.site :: p.forms.map Form.span

theorem exists_tokens_eq (p : Partial) :
    ∃ lexeme, p.tokens = ⟨lexeme, p.site⟩ :: p.forms.flatMap Form.tokens := by
  cases p with
  | group kind opener children => exact ⟨.opener kind, rfl⟩
  | ascription site type => exact ⟨.sigil .ascription, rfl⟩
  | marked mark site => exact ⟨.sigil (.mark mark), rfl⟩

theorem places_eq (p : Partial) : p.places = p.site :: p.forms.flatMap Form.places := by
  obtain ⟨lexeme, htokens⟩ := p.exists_tokens_eq
  rw [places, htokens, List.map_cons, List.map_flatMap]
  rfl

theorem joins_outline (p : Partial) : Joins p.span p.outline := by
  cases p with
  | group kind opener children =>
      cases children with
      | nil => exact Span.joins_self opener
      | cons last children =>
          have hlast : last.span ∈ (outline (.group kind opener (last :: children))).getLast? := by
            simp [outline, forms, Stack.bottomUp, List.getLast?_cons]
          exact ⟨opener, rfl, last.span, hlast, rfl⟩
  | ascription site type =>
      cases type with
      | none => exact Span.joins_self site
      | some type => exact ⟨site, rfl, type.span, rfl, rfl⟩
  | marked mark site => exact Span.joins_self site

theorem cover_outline {p : Partial} (h : Ascending p.places) : Cover p.outline p.places := by
  rw [places_eq] at h ⊢
  exact .cons (Span.reaches_self p.site) (Form.cover_spans (h.sublist (List.sublist_cons_self _ _)))

theorem reaches_places (p : Partial) (h : Ascending p.places) : Reaches p.span p.places :=
  p.joins_outline.reaches (cover_outline h) h

end Partial

def Form.FoundIn (text : List Char) (f : Form) : Prop :=
  f ∈ parseForms text ∨ ∃ e ∈ parseErrors text, ∃ p ∈ e.partials, f ∈ p.forms

namespace ParseError

def places (e : ParseError) : List Span :=
  e.partials.flatMap Partial.places ++ (e.complaint?.map Prod.fst).toList

def outline (e : ParseError) : List Span :=
  e.partials.map Partial.span ++ (e.complaint?.map Prod.fst).toList

theorem cover_outline {e : ParseError} (h : Ascending e.places) : Cover e.outline e.places :=
  (Span.cover_map (fun p _ => p.reaches_places) (h.sublist (List.sublist_append_left _ _))).append
    (Span.cover_self _)

theorem ascending_partial {e : ParseError} (h : Ascending e.places) {p : Partial}
    (hp : p ∈ e.partials) : Ascending p.places := by
  have hsub : p.places.Sublist (e.partials.flatMap Partial.places) :=
    List.sublist_flatten_of_mem (List.mem_map_of_mem hp)
  exact h.sublist (hsub.trans (List.sublist_append_left _ _))

theorem places_eq_map {e : ParseError} (he : e.kind ≠ .token) : e.places = e.tokens.map Token.span := by
  cases e with
  | token cause opened => exact absurd rfl he
  | mismatch kind closer inner outer =>
      simp only [places, partials, complaint?, tokens, List.map_append, List.map_flatMap]
      rfl
  | unmatched kind closer => rfl
  | unfinished inner outer =>
      simp only [places, partials, complaint?, tokens, List.map_flatMap]
      exact List.append_nil _

end ParseError

namespace Parser

def Event.places : Event → List Span
  | .form f => f.places
  | .error e => e.places
  | .fault _ => []

def Item.places : Item → List Span
  | .token t => [t.span]
  | .failure e => [e.span]
  | .fault _ => []

theorem FromToken.places_eq {event : Event} {opened : Stack Partial} (h : FromToken event opened) :
    event.places = event.tokens.map Token.span := by
  cases h with
  | form f => rfl
  | error he => exact ParseError.places_eq_map he

variable {opened : Stack Partial} {item : Item} {items : List Item} {event : Event}

theorem map_tokens_sublist (item : Item) : (item.tokens.map Token.span).Sublist item.places := by
  cases item with
  | token t => exact .refl _
  | failure e => exact List.nil_sublist _
  | fault message => exact .refl _

theorem places_sublist_of_feed (h : (feed opened item).1 = some event) :
    event.places.Sublist ((pending opened).map Token.span ++ item.places) := by
  cases item with
  | failure e =>
      obtain rfl := Option.some.inj h
      rw [pending, List.map_flatMap]
      exact .refl _
  | fault message =>
      obtain rfl := Option.some.inj h
      exact List.nil_sublist _
  | token t =>
      rw [(accept_fromToken h).places_eq]
      have hsub : event.tokens.Sublist (pending opened ++ [t]) := (tokens_initial_of_feed h).sublist
      simpa [Item.places] using hsub.map Token.span

theorem pending_sublist_of_feed (opened : Stack Partial) (item : Item) :
    ((pending (feed opened item).2).map Token.span).Sublist
      ((pending opened).map Token.span ++ item.places) := by
  have hmap := (pending_final_of_feed opened item).sublist.map Token.span
  rw [List.map_append] at hmap
  exact hmap.trans ((map_tokens_sublist item).append_left _)

theorem places_sublist_of_mem_run (h : event ∈ run opened items) :
    event.places.Sublist ((pending opened).map Token.span ++ items.flatMap Item.places) := by
  induction items generalizing opened with
  | nil =>
      cases opened with
      | nil => cases h
      | cons inner outer =>
          obtain rfl := List.mem_singleton.mp h
          have hplaces := ParseError.places_eq_map (e := .unfinished inner outer) nofun
          rw [Event.places, hplaces, List.flatMap_nil, List.append_nil]
          exact .refl _
  | cons item items ih =>
      rw [List.flatMap_cons, ← List.append_assoc]
      rcases List.mem_append.mp h with h | h
      · exact (places_sublist_of_feed (Option.mem_toList.mp h)).trans (List.sublist_append_left _ _)
      · -- What is handed out first is no longer pending, but the rest keeps its order.
        exact (ih h).trans ((pending_sublist_of_feed opened item).append_right _)

theorem ascending_scan (text : List Char) : Ascending ((scan text).map Scanned.span) where
  covers := by
    simp only [List.mem_map]
    rintro _ ⟨i, hi, rfl⟩
    exact (Scanner.exact_of_mem_scan hi).1.nonempty
  pairwise := List.pairwise_map.mpr ((Scanner.scan_scans text).pairwise Scanner.advance_start)

theorem flatMap_places_ofScanned (found : List Scanned) :
    (found.map Item.ofScanned).flatMap Item.places = found.map Scanned.span := by
  induction found with
  | nil => rfl
  | cons i found ih =>
      cases i with
      | ok t => exact congrArg (t.span :: ·) ih
      | error e => exact congrArg (e.span :: ·) ih

theorem ascending_of_mem_parse {text : List Char} (h : event ∈ parse text) : Ascending event.places := by
  have hsub := places_sublist_of_mem_run h
  rw [Stack.empty, pending_nil, List.map_nil, List.nil_append, flatMap_places_ofScanned] at hsub
  exact (ascending_scan text).sublist hsub

theorem ascending_forms (text : List Char) : Ascending ((parseForms text).flatMap Form.places) := by
  have htokens := (inOrder_tokenize text).sublist (allTokens_forms_sublist text)
  have hplaces : (parseForms text).flatMap Form.places =
      (Form.allTokens (parseForms text)).map Token.span := by
    rw [Form.allTokens_eq_flatMap, List.map_flatMap]
    rfl
  rw [hplaces]
  exact htokens.ascending

theorem ascending_spans (text : List Char) : Ascending ((parseForms text).map Form.span) :=
  (Form.cover_spans (ascending_forms text)).ascending (ascending_forms text)

theorem ascending_foundIn {text : List Char} {f : Form} (h : f.FoundIn text) : Ascending f.places := by
  rcases h with h | ⟨e, he, p, hp, h⟩
  · exact ascending_of_mem_parse (mem_parseForms_iff.mp h)
  · have hplaces : Ascending e.places := ascending_of_mem_parse (mem_parseErrors_iff.mp he)
    refine (ParseError.ascending_partial hplaces hp).sublist ?_
    rw [Partial.places_eq]
    exact .cons _ (List.sublist_flatten_of_mem (List.mem_map_of_mem h))

theorem exists_form_of_token {text : List Char} (h : parseErrors text = []) {t : Token}
    (ht : t ∈ (tokenize text).1) : ∃ f ∈ parseForms text, t.span.Within f.span := by
  rw [← flatMap_tokens_parse] at ht
  obtain ⟨event, hevent, ht⟩ := List.mem_flatMap.mp ht
  cases event with
  | form f =>
      have hf := mem_parseForms_iff.mpr hevent
      have hplaces : Ascending f.places := ascending_of_mem_parse hevent
      exact ⟨f, hf, (f.reaches_places hplaces).within hplaces _ (List.mem_map_of_mem ht)⟩
  | error e =>
      have he := mem_parseErrors_iff.mpr hevent
      rw [h] at he
      cases he
  | fault message => exact absurd hevent (fault_not_mem_parse text message)

theorem form_unique {text : List Char} {s : Span} (hs : s.start.offset < s.stop.offset) {f g : Form}
    (hf : f ∈ parseForms text) (hg : g ∈ parseForms text) (hsf : s.Within f.span)
    (hsg : s.Within g.span) : f = g := by
  by_contra hne
  have happart : (parseForms text).Pairwise Form.Apart :=
    (List.pairwise_map.mp (ascending_spans text).pairwise).imp .inl
  have hfg := happart.forall hf hg hne
  simp only [Form.Apart] at hfg
  obtain ⟨hstart, hstop⟩ := hsf
  obtain ⟨hstart', hstop'⟩ := hsg
  omega

/-- The spans of the forms of a text ascend without overlap. So do, within each form, the places of its
marks and brackets and the spans of its parts, all of them within the span of the form, which starts with
its first token and ends with its last; and so do, for each error, the spans of the open constructs and the
place of what is complained about. Without errors, each token is within exactly one form. -/
theorem spans_follow_text (text : List Char) :
    Ascending ((parseForms text).map Form.span) ∧
      (∀ f : Form, f.FoundIn text → ∀ g : Form, g.PartOf f →
        Ascending g.outline ∧ (∀ s ∈ g.outline, s.Within g.span) ∧ Reaches g.span g.places) ∧
      (∀ e ∈ parseErrors text, Ascending e.outline ∧ ∀ p ∈ e.partials, Reaches p.span p.places) ∧
      (parseErrors text = [] →
        ∀ t ∈ (tokenize text).1, ∃! f, f ∈ parseForms text ∧ t.span.Within f.span) := by
  refine ⟨ascending_spans text, fun f hf g hg => ?_, fun e he => ?_, fun herrors t ht => ?_⟩
  · have hplaces : Ascending g.places := (ascending_foundIn hf).sublist (hg.sublist.map Token.span)
    have houtline := (Form.cover_outline hplaces).ascending hplaces
    exact ⟨houtline, (g.joins_outline.reaches_self houtline).within houtline, g.reaches_places hplaces⟩
  · have hplaces := ascending_of_mem_parse (mem_parseErrors_iff.mp he)
    exact ⟨(ParseError.cover_outline hplaces).ascending hplaces, fun p hp =>
      p.reaches_places (ParseError.ascending_partial hplaces hp)⟩
  · obtain ⟨f, hf, hwithin⟩ := exists_form_of_token herrors ht
    have hcovers := (inOrder_tokenize text).covers t ht
    exact ⟨f, ⟨hf, hwithin⟩, fun g ⟨hg, hg'⟩ => form_unique hcovers hg hf hg' hwithin⟩

theorem spans_follow_text_of_quoted_group :
    let place (i j : Int) : Span := ⟨⟨i, 0, i⟩, ⟨j, 0, j⟩⟩
    let a : Token := ⟨.symbol "a", place 2 3⟩
    let group : Form := .group .paren (place 1 2) (place 3 4) [.symbol "a" (place 2 3)]
    let quoted : Form := .marked .quote (place 0 1) group
    -- The same with a bracket that does not match.
    let inner : Partial := .group .paren (place 1 2) [.symbol "a" (place 2 3)]
    let e : ParseError := .mismatch .square (place 3 4) inner [.marked .quote (place 0 1)]
    let text := ['\'', '(', 'a', ')']
    let text' := ['\'', '(', 'a', ']']
    (quoted.FoundIn text ∧ group.PartOf quoted ∧ Ascending group.outline ∧
        (∀ s ∈ group.outline, s.Within group.span) ∧ Reaches group.span group.places) ∧
      (e ∈ parseErrors text' ∧ Ascending [place 0 1, place 1 3, place 3 4] ∧
        inner ∈ e.partials ∧ Reaches (place 1 3) [place 1 2, place 2 3]) ∧
      parseErrors text = [] ∧ a ∈ (tokenize text).1 ∧
        ∃! f, f ∈ parseForms text ∧ a.span.Within f.span := by
  intro place a group quoted inner e text text'
  have hquoted : quoted.FoundIn text := .inl (List.mem_of_getElem? (i := 0) rfl)
  have hgroup : group.PartOf quoted := .operand .whole
  have he : e ∈ parseErrors text' := List.mem_of_getElem? (i := 0) rfl
  have hinner : inner ∈ e.partials := List.mem_of_getElem? (i := 1) rfl
  have ha : a ∈ (tokenize text).1 := List.mem_of_getElem? (i := 2) rfl
  obtain ⟨_, hforms, _, htokens⟩ := spans_follow_text text
  obtain ⟨_, _, herrors, _⟩ := spans_follow_text text'
  obtain ⟨houtline, hreaches⟩ := herrors e he
  exact ⟨⟨hquoted, hgroup, hforms quoted hquoted group hgroup⟩,
    ⟨he, houtline, hinner, hreaches inner hinner⟩, rfl, ha, htokens rfl a ha⟩

end Parser

end SmallLisp
