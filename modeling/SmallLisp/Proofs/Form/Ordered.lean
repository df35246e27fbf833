import SmallLisp.Proofs.Form.Places

namespace SmallLisp

structure Token.InOrder (ts : List Token) : Prop where
  covers : ∀ t ∈ ts, t.span.start.offset < t.span.stop.offset
  pairwise : ts.Pairwise fun t u => t.span.stop.offset ≤ u.span.start.offset

namespace Token.InOrder

variable {ts us : List Token}

theorem sublist (h : InOrder ts) (hsub : us.Sublist ts) : InOrder us :=
  ⟨fun t ht => h.covers t (hsub.subset ht), h.pairwise.sublist hsub⟩

end Token.InOrder

theorem inOrder_tokenize (text : List Char) : Token.InOrder (tokenize text).1 where
  covers t ht := (Scanner.exact_of_mem_scan (Scanner.mem_tokens_iff.mp ht)).1.nonempty
  pairwise := by
    rw [tokenize, List.pairwise_filterMap]
    refine ((Scanner.scan_scans text).pairwise Scanner.advance_start).imp fun {i j} hij t ht u hu => ?_
    cases i with
    | error e => cases ht
    | ok t' =>
        cases j with
        | error e => cases hu
        | ok u' =>
            obtain rfl : t' = t := Option.some.inj ht
            obtain rfl : u' = u := Option.some.inj hu
            exact hij

namespace Parser

theorem tokens_of_scanned (found : List Scanned) :
    (found.map Item.ofScanned).flatMap Item.tokens =
      found.filterMap fun | .ok t => some t | .error _ => none := by
  induction found with
  | nil => rfl
  | cons i found ih =>
      cases i with
      | ok t => exact congrArg (t :: ·) ih
      | error e => exact ih

theorem flatMap_tokens_parse (text : List Char) :
    (parse text).flatMap Event.tokens = (tokenize text).1 := by
  rw [parse, run_tokens, tokens_of_scanned]
  rfl

theorem allTokens_forms_sublist (text : List Char) :
    (Form.allTokens (parseForms text)).Sublist (tokenize text).1 := by
  rw [← flatMap_tokens_parse, Form.allTokens_eq_flatMap, parseForms]
  induction parse text with
  | nil => exact .refl _
  | cons event events ih =>
      cases event with
      | form f => exact ih.append_left f.tokens
      | error e => exact ih.trans (List.sublist_append_right e.tokens _)
      | fault message => exact ih

end Parser

namespace Form

theorem tokens_isInfix_of_mem {f : Form} {fs : List Form} (hf : f ∈ fs) :
    f.tokens <:+: allTokens fs := by
  rw [allTokens_eq_flatMap]
  exact List.infix_of_mem_flatten (List.mem_map_of_mem hf)

theorem tokens_sublist_of_mem {f : Form} {fs : List Form} (hf : f ∈ fs) :
    f.tokens.Sublist (allTokens fs) :=
  (tokens_isInfix_of_mem hf).sublist

theorem allTokens_sublist {fs gs : List Form} (h : fs.Sublist gs) :
    (allTokens fs).Sublist (allTokens gs) := by
  induction h with
  | slnil => exact .refl _
  | @cons _ _ g _ ih => exact ih.trans (List.sublist_append_right g.tokens _)
  | @cons_cons _ _ g _ ih => exact ih.append_left g.tokens

inductive PartOf (g : Form) : Form → Prop
  | whole : PartOf g g
  | child {kind : Delimiter} {opener closer : Span} {children : List Form} {f : Form} :
      f ∈ children → PartOf g f → PartOf g (.group kind opener closer children)
  | operand {mark : Mark} {site : Span} {f : Form} : PartOf g f → PartOf g (.marked mark site f)
  | type {site : Span} {f value : Form} : PartOf g f → PartOf g (.ascription site f value)
  | value {site : Span} {type f : Form} : PartOf g f → PartOf g (.ascription site type f)

def parts : Form → List Form
  | .int _ _ => []
  | .symbol _ _ => []
  | .group _ _ _ children => children
  | .marked _ _ operand => [operand]
  | .ascription _ type value => [value, type]

theorem partOf_iff {g f : Form} : g.PartOf f ↔ g = f ∨ ∃ p ∈ f.parts, g.PartOf p := by
  constructor
  · intro h
    cases h with
    | whole => exact .inl rfl
    | child hf h => exact .inr ⟨_, hf, h⟩
    | operand h => exact .inr ⟨_, by simp [parts], h⟩
    | type h => exact .inr ⟨_, by simp [parts], h⟩
    | value h => exact .inr ⟨_, by simp [parts], h⟩
  · rintro (rfl | ⟨p, hp, h⟩)
    · exact .whole
    · cases f with
      | int value site => cases hp
      | symbol text site => cases hp
      | group kind opener closer children => exact .child hp h
      | marked mark site operand =>
          obtain rfl := List.mem_singleton.mp hp
          exact .operand h
      | ascription site type value =>
          rcases (by simpa [parts] using hp : p = value ∨ p = type) with rfl | rfl
          · exact .value h
          · exact .type h

theorem sizeOf_lt_of_mem_parts {p f : Form} (hp : p ∈ f.parts) : sizeOf p < sizeOf f := by
  cases f with
  | int value site => cases hp
  | symbol text site => cases hp
  | group kind opener closer children =>
      have hlt : sizeOf p < sizeOf children := List.sizeOf_lt_of_mem hp
      simp only [group.sizeOf_spec]
      omega
  | marked mark site operand =>
      obtain rfl := List.mem_singleton.mp hp
      simp only [marked.sizeOf_spec]
      omega
  | ascription site type value =>
      simp only [ascription.sizeOf_spec]
      rcases (by simpa [parts] using hp : p = value ∨ p = type) with rfl | rfl <;> omega

theorem PartOf.isInfix {g f : Form} (h : g.PartOf f) : g.tokens <:+: f.tokens := by
  induction h with
  | whole => exact List.infix_rfl
  | child hf _ ih =>
      exact List.infix_cons
        ((ih.trans (tokens_isInfix_of_mem hf)).trans (List.prefix_append _ _).isInfix)
  | operand _ ih => exact List.infix_cons ih
  | type _ ih => exact List.infix_cons (ih.trans (List.prefix_append _ _).isInfix)
  | value _ ih => exact List.infix_cons (ih.trans (List.suffix_append _ _).isInfix)

theorem PartOf.sublist {g f : Form} (h : g.PartOf f) : g.tokens.Sublist f.tokens :=
  h.isInfix.sublist

theorem inOrder_of_mem_parse {text : List Char} {f : Form} (hf : f ∈ parseForms text) :
    Token.InOrder f.tokens :=
  (inOrder_tokenize text).sublist ((tokens_sublist_of_mem hf).trans (Parser.allTokens_forms_sublist text))

theorem covers_of_inOrder {f : Form} (h : Token.InOrder f.tokens) :
    f.span.start.offset < f.span.stop.offset := by
  refine @span_of_tokens (fun s => s.start.offset < s.stop.offset) (fun hs ht => ?_) f h.covers
  simp only [Span.join_start_offset, Span.join_stop_offset]
  omega

theorem le_start {k : Int} {f : Form} (h : ∀ t ∈ f.tokens, k ≤ t.span.start.offset) :
    k ≤ f.span.start.offset := by
  refine @span_of_tokens (fun s => k ≤ s.start.offset) (fun hs ht => ?_) f h
  rw [Span.join_start_offset]
  omega

theorem stop_le {k : Int} {f : Form} (h : ∀ t ∈ f.tokens, t.span.stop.offset ≤ k) :
    f.span.stop.offset ≤ k := by
  refine @span_of_tokens (fun s => s.stop.offset ≤ k) (fun hs ht => ?_) f h
  rw [Span.join_stop_offset]
  omega

theorem join_of_inOrder {f g : Form} (h : Token.InOrder (f.tokens ++ g.tokens)) :
    f.span.join g.span = ⟨f.span.start, g.span.stop⟩ := by
  have hf := covers_of_inOrder (h.sublist (List.sublist_append_left f.tokens g.tokens))
  have hg := covers_of_inOrder (h.sublist (List.sublist_append_right f.tokens g.tokens))
  have hfg : f.span.stop.offset ≤ g.span.start.offset := by
    obtain ⟨_, _, hbefore⟩ := List.pairwise_append.mp h.pairwise
    exact le_start fun u hu => stop_le fun t ht => hbefore t ht u hu
  rw [Span.join, if_neg (by omega), if_pos (by omega)]

theorem start_marked {mark : Mark} {site : Span} {operand : Form}
    (h : Token.InOrder (marked mark site operand).tokens) :
    (marked mark site operand).span.start = site.start := by
  have hsite : site.start.offset < site.stop.offset := h.covers _ List.mem_cons_self
  have hbehind : site.stop.offset ≤ operand.span.start.offset :=
    le_start (List.pairwise_cons.mp h.pairwise).1
  rw [span, Span.join, if_neg (by omega)]

end Form

end SmallLisp
