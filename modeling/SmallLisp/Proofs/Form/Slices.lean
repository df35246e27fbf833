import SmallLisp.Proofs.Form.Printing
import SmallLisp.Proofs.Form.Spans
import SmallLisp.Proofs.Token.Cut

namespace SmallLisp

open SmallLisp.Span (Ascending Reaches)

theorem File.slice?_eq_under {file : File} {s : Span} (h : s.LiesIn file.contents) :
    file.slice? s = some (s.under file.contents) := by
  obtain ⟨i, j, hij, hj, rfl⟩ := h
  have hstart : 0 ≤ (Position.behind file.contents i).offset := by
    rw [Position.behind_offset (Nat.le_trans hij hj)]
    exact Int.natCast_nonneg i
  rw [File.slice?, if_neg (Int.not_lt.mpr hstart)]
  rfl

namespace Parser

def Event.held : Event → List Token
  | .form f => f.tokens
  | .error e => e.partials.flatMap Partial.tokens
  | .fault _ => []

theorem FromToken.held_initial {event : Event} {opened : Stack Partial} (h : FromToken event opened) :
    event.held <+: event.tokens := by
  cases h with
  | form f => exact List.prefix_rfl
  | @error e he =>
      cases e with
      | token cause opened => exact absurd rfl he
      | mismatch kind closer inner outer => exact List.prefix_append _ _
      | unmatched kind closer => exact List.nil_prefix
      | unfinished inner outer => exact List.prefix_rfl

variable {opened : Stack Partial} {item : Item} {items : List Item} {event : Event}

theorem held_isInfix_of_feed (h : (feed opened item).1 = some event) :
    event.held <:+: pending opened ++ item.tokens := by
  cases item with
  | failure e =>
      obtain rfl := Option.some.inj h
      exact (List.prefix_append _ _).isInfix
  | fault message =>
      obtain rfl := Option.some.inj h
      exact List.nil_infix
  | token t =>
      exact ((accept_fromToken h).held_initial.trans (tokens_initial_of_feed h)).isInfix

theorem held_isInfix_of_mem_run (h : event ∈ run opened items) :
    event.held <:+: pending opened ++ items.flatMap Item.tokens := by
  induction items generalizing opened with
  | nil =>
      cases opened with
      | nil => cases h
      | cons inner outer =>
          obtain rfl := List.mem_singleton.mp h
          exact (List.prefix_append _ _).isInfix
  | cons item items ih =>
      rw [List.flatMap_cons, ← List.append_assoc]
      rcases List.mem_append.mp h with h | h
      · exact (held_isInfix_of_feed (Option.mem_toList.mp h)).trans (List.prefix_append _ _).isInfix
      · -- What the item hands out stands before all that is pending then.
        obtain ⟨gone, hgone⟩ := pending_final_of_feed opened item
        rw [← hgone, List.append_assoc]
        exact (ih h).trans (List.suffix_append _ _).isInfix

end Parser

namespace Form

variable {text : List Char} {f g : Form}

theorem FoundIn.tokens_isInfix (h : f.FoundIn text) : f.tokens <:+: (tokenize text).1 := by
  have hheld {event : Parser.Event} (hevent : event ∈ parse text) :
      event.held <:+: (tokenize text).1 := by
    have hrun := Parser.held_isInfix_of_mem_run hevent
    rwa [Stack.empty, Parser.pending_nil, List.nil_append, Parser.tokens_of_scanned] at hrun
  rcases h with h | ⟨e, he, p, hp, h⟩
  · exact hheld (Parser.mem_parseForms_iff.mp h)
  · obtain ⟨lexeme, htokens⟩ := p.exists_tokens_eq
    have hpartial : f.tokens <:+: p.tokens := by
      rw [htokens, ← allTokens_eq_flatMap]
      exact List.infix_cons (tokens_isInfix_of_mem h)
    have hpartials : p.tokens <:+: e.partials.flatMap Partial.tokens :=
      List.infix_of_mem_flatten (List.mem_map_of_mem hp)
    exact (hpartial.trans hpartials).trans (hheld (Parser.mem_parseErrors_iff.mp he))

theorem filter_tokens_within {ts us vs : List Token} (h : Token.InOrder (ts ++ us ++ vs)) {s : Span}
    (hs : Reaches s (us.map Token.span)) :
    (ts ++ us ++ vs).filter (fun t => t.span.Within s) = us := by
  obtain ⟨hfirst, _, hbehind⟩ := List.pairwise_append.mp h.pairwise
  obtain ⟨_, _, hbefore⟩ := List.pairwise_append.mp hfirst
  have hus : Ascending (us.map Token.span) :=
    (h.sublist (List.infix_append ts us vs).sublist).ascending
  refine Span.filter_within (fun t ht => ?_) (List.forall_mem_map.mp (hs.within hus)) fun t ht => ?_
  · rintro ⟨hstart, _⟩
    have hcovers := h.covers t (by simp [ht])
    have hle := hs.le_start (List.forall_mem_map.mpr (hbefore t ht))
    omega
  · rintro ⟨_, hstop⟩
    have hcovers := h.covers t (by simp [ht])
    have hle := hs.stop_le (List.forall_mem_map.mpr fun u hu => hbehind u (by simp [hu]) t ht)
    omega

theorem tokenize_under {s : Span} (hs : s.LiesIn text)
    (hcut : ∀ i ∈ scan text, ¬i.span.CutBy s.start.offset ∧ ¬i.span.CutBy s.stop.offset) :
    (tokenize (s.under text)).1.map Token.bare =
      ((tokenize text).1.filter fun t => t.span.Within s).map Token.bare := by
  obtain ⟨i, j, hij, hj, rfl⟩ := hs
  have hpieces : (text.take j).take i ++ (text.take j).drop i ++ text.drop j = text := by
    rw [List.take_append_drop, List.take_append_drop]
  have hstart : (Position.behind text i).offset = ((text.take j).take i).length := by
    rw [Position.behind_offset (Nat.le_trans hij hj), List.take_take, Nat.min_eq_left hij,
      List.length_take_of_le (Nat.le_trans hij hj)]
  have hstop : (Position.behind text j).offset =
      ((text.take j).take i ++ (text.take j).drop i).length := by
    rw [Position.behind_offset hj, List.take_append_drop, List.length_take_of_le hj]
  have hunder : Span.under text ⟨.behind text i, .behind text j⟩ = (text.take j).drop i := by
    rw [Span.under, Position.behind_offset hj, Position.behind_offset (Nat.le_trans hij hj),
      Int.toNat_natCast, Int.toNat_natCast]
  have hslice := Munch.tokenize_slice (s := ⟨.behind text i, .behind text j⟩) hstart hstop
    (by rwa [hpieces])
  rwa [hpieces, ← hunder] at hslice

theorem liesIn_of_isInfix (h : f.tokens <:+: (tokenize text).1) : f.span.LiesIn text :=
  span_of_tokens Span.LiesIn.join fun _ ht =>
    Scanner.liesIn_of_mem_scan (Scanner.mem_tokens_iff.mp (h.subset ht))

theorem tokenize_under_span (h : f.tokens <:+: (tokenize text).1) :
    (tokenize (f.span.under text)).1.map Token.bare = f.tokens.map Token.bare := by
  obtain ⟨ts, vs, htokens⟩ := h
  have hinOrder : Token.InOrder (ts ++ f.tokens ++ vs) := htokens ▸ inOrder_tokenize text
  have hplaces : Ascending f.places :=
    (hinOrder.sublist (List.infix_append ts f.tokens vs).sublist).ascending
  have hreaches := f.reaches_places hplaces
  have hscan : ∀ t ∈ f.tokens, .ok t ∈ scan text := fun t ht =>
    Scanner.mem_tokens_iff.mp (htokens ▸ (List.infix_append ts f.tokens vs).subset ht)
  -- The ends of the form are those of tokens, and nothing found is cut there.
  have hcut : ∀ i ∈ scan text,
      ¬i.span.CutBy f.span.start.offset ∧ ¬i.span.CutBy f.span.stop.offset := by
    intro i hi
    obtain ⟨p, hp, hstart⟩ := hreaches.exists_first
    obtain ⟨q, hq, hstop⟩ := hreaches.exists_last
    obtain ⟨t, ht, rfl⟩ := List.mem_map.mp (List.mem_of_mem_head? hp)
    obtain ⟨u, hu, rfl⟩ := List.mem_map.mp (List.mem_of_mem_getLast? hq)
    rw [← hstart, ← hstop]
    exact ⟨(Munch.not_cutBy_of_mem_scan (hscan t ht) hi).1,
      (Munch.not_cutBy_of_mem_scan (hscan u hu) hi).2⟩
  rw [tokenize_under (liesIn_of_isInfix ⟨ts, vs, htokens⟩) hcut, ← htokens,
    filter_tokens_within hinOrder hreaches]

end Form

namespace Parser

theorem filter_itemsOf (text : List Char) :
    ((itemsOf text).map Item.bare).filter Item.isToken =
      ((tokenize text).1.map Token.bare).map .token := by
  rw [itemsOf, tokenize_tokens]
  induction scan text with
  | nil => rfl
  | cons i found ih =>
      cases i with
      | ok t => exact congrArg (.token t.bare :: ·) ih
      | error e => exact ih

theorem filter_parse {text : List Char} {fs : List Form}
    (h : (tokenize text).1.map Token.bare = (fs.flatMap Form.tokens).map Token.bare) :
    ((parse text).map Event.bare).filter Event.isStructural = fs.map fun f => .form f.bare := by
  rw [parse_bare, run_filter, filter_itemsOf, h, ← Form.allTokens_bare, run_forms, List.map_map]
  rfl

theorem kind_bare (e : ParseError) : e.bare.kind = e.kind := by
  cases e <;> rfl

theorem forms_bare (events : List Event) : (events.filterMap Event.form?).map Form.bare =
    ((events.map Event.bare).filter Event.isStructural).filterMap Event.form? := by
  induction events with
  | nil => rfl
  | cons event events ih =>
      cases event with
      | form f => exact congrArg (f.bare :: ·) ih
      | fault message => exact ih
      | error e =>
          rw [List.map_cons, List.filter_cons]
          split
          · exact ih
          · exact ih

/-- The text under a form that is found in a file, or under any part of it, is parsed as that form alone; and
nothing is wrong with it but the pieces that are no tokens. -/
theorem text_under_span_is_form {file : File} {f g : Form} (hf : f.FoundIn file.contents)
    (hg : g.PartOf f) :
    ∃ slice, file.slice? g.span = some slice ∧ (parseForms slice).map Form.bare = [g.bare] ∧
      ∀ e ∈ parseErrors slice, e.kind = .token := by
  have htokens : g.tokens <:+: (tokenize file.contents).1 := hg.isInfix.trans hf.tokens_isInfix
  have hslice := File.slice?_eq_under (Form.liesIn_of_isInfix htokens)
  have hscanned : (tokenize (g.span.under file.contents)).1.map Token.bare =
      ([g].flatMap Form.tokens).map Token.bare := by
    rw [List.flatMap_singleton]
    exact Form.tokenize_under_span htokens
  have hparse := filter_parse hscanned
  refine ⟨_, hslice, ?_, fun e he => ?_⟩
  · rw [parseForms, forms_bare, hparse]
    rfl
  · -- Any other error would be left beside the form.
    by_contra hkind
    have hevent : .error e.bare ∈ (parse (g.span.under file.contents)).map Event.bare :=
      List.mem_map_of_mem (mem_parseErrors_iff.mp he)
    have hstructural : (Event.error e.bare).isStructural := by
      simpa [Event.isStructural, kind_bare] using hkind
    have hleft := List.mem_filter.mpr ⟨hevent, hstructural⟩
    rw [hparse] at hleft
    cases List.mem_singleton.mp hleft

theorem text_under_span_is_form_around_stray :
    -- A control character, which starts nothing, in a group behind a mark.
    let file : File := ⟨⟨0, ""⟩, ['~', '(', 'a', '\x01', '7', ')']⟩
    let place (i j : Int) : Span := ⟨⟨i, 0, i⟩, ⟨j, 0, j⟩⟩
    let group : Form := .group .paren (place 1 2) (place 5 6)
      [.symbol "a" (place 2 3), .int 7 (place 4 5)]
    let f : Form := .marked .unquote (place 0 1) group
    let slice := ['(', 'a', '\x01', '7', ')']
    f.FoundIn file.contents ∧ group.PartOf f ∧ file.slice? group.span = some slice ∧
      (parseForms slice).map Form.bare = [group.bare] ∧ ∀ e ∈ parseErrors slice, e.kind = .token := by
  intro file place group f slice
  have hf : f.FoundIn file.contents := .inl (List.mem_of_getElem? (i := 0) rfl)
  have hgroup : group.PartOf f := .operand .whole
  have hslice : file.slice? group.span = some slice := rfl
  obtain ⟨slice', hslice', hforms, herrors⟩ := text_under_span_is_form hf hgroup
  obtain rfl := Option.some.inj (hslice.symm.trans hslice')
  exact ⟨hf, hgroup, hslice, hforms, herrors⟩

end Parser

end SmallLisp
