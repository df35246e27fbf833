import SmallLisp.Proofs.Form.Bare
import SmallLisp.Proofs.Form.Tokens
import SmallLisp.Proofs.Token.Spelling

namespace SmallLisp

inductive Text.Joined : List String → List Char → Prop
  | nil : Joined [] []
  | single {s : String} : Joined [s] s.toList
  | cons {s t : String} {ts : List String} {c : Char} {cs : List Char} :
      isBlank c → Joined (t :: ts) cs → Joined (s :: t :: ts) (s.toList ++ c :: cs)

theorem Text.joined_spaced (ts : List String) : Joined ts (spaced ts).toList := by
  match ts with
  | [] => exact .nil
  | [t] => exact .single
  | s :: t :: ts =>
      have h := Joined.cons isBlank_space (joined_spaced (t :: ts)) (s := s)
      simpa [List.append_assoc] using h

theorem isSymbolChar_closing (d : Delimiter) : isSymbolChar d.closing = false := by
  cases d <;> decide

namespace Form

def Spellable (f : Form) : Prop := ∀ t ∈ f.tokens, t.lexeme.Spellable

instance (f : Form) : Decidable f.Spellable :=
  inferInstanceAs (Decidable (∀ t ∈ f.tokens, t.lexeme.Spellable))

open Scanner Text

mutual

theorem spells_text (f : Form) (hf : f.Spellable) {rest : List Char} {lexemes : List Lexeme}
    (hrest : ∀ c ∈ rest.head?, isSymbolChar c = false) (h : Spells rest lexemes) :
    Spells (f.text.toList ++ rest) (f.tokens.map Token.lexeme ++ lexemes) := by
  match f with
  | .int value site => exact .number (hf ⟨.number value, site⟩ (by simp [tokens])) hrest h
  | .symbol text site => exact .symbol (hf ⟨.symbol text, site⟩ (by simp [tokens])) hrest h
  | .marked mark site operand =>
      have ho : operand.Spellable := fun t ht => hf t (by simp [tokens, ht])
      simpa [text, tokens, Sigil.char] using (spells_text operand ho hrest h).sigil (.mark mark)
  | .ascription site type value =>
      have ht : type.Spellable := fun t ht => hf t (by simp [tokens, ht])
      have hv : value.Spellable := fun t ht => hf t (by simp [tokens, ht])
      have hvalue := (spells_text value hv hrest h).blank isBlank_space
      have htype := spells_text type ht (by simp [isSymbolChar_of_isBlank isBlank_space]) hvalue
      simpa [text, tokens] using htype.sigil .ascription
  | .group kind opener closer children =>
      have hc : ∀ f ∈ children, f.Spellable := fun f hf' t ht =>
        hf t (by simp [tokens, allTokens_eq_flatMap]; exact .inr (.inl ⟨f, hf', ht⟩))
      have hjoined := joined_spaced (children.map text)
      have hchildren := spells_joined children hc hjoined (by simp [isSymbolChar_closing])
        (h.closer kind)
      simpa [text, texts_eq_map, tokens, allTokens_eq_flatMap] using hchildren.opener kind

theorem spells_joined (fs : List Form) (hfs : ∀ f ∈ fs, f.Spellable) {cs : List Char}
    (hcs : Joined (fs.map text) cs) {rest : List Char} {lexemes : List Lexeme}
    (hrest : ∀ c ∈ rest.head?, isSymbolChar c = false) (h : Spells rest lexemes) :
    Spells (cs ++ rest) ((fs.flatMap tokens).map Token.lexeme ++ lexemes) := by
  match fs with
  | [] =>
      cases hcs
      exact h
  | [f] =>
      cases hcs
      simpa using spells_text f (hfs f (by simp)) hrest h
  | f :: g :: fs =>
      obtain ⟨hf, hfs⟩ := List.forall_mem_cons.mp hfs
      cases hcs with
      | cons hc hcs =>
          have hrest' := (spells_joined (g :: fs) hfs hcs hrest h).blank hc
          simpa using spells_text f hf (by simp [isSymbolChar_of_isBlank hc]) hrest'

end

mutual

theorem tokens_bare (f : Form) : f.bare.tokens = f.tokens.map Token.bare := by
  match f with
  | .int value site => rfl
  | .symbol text site => rfl
  | .marked mark site operand => simp [bare, tokens, tokens_bare operand, Token.bare]
  | .ascription site type value =>
      simp [bare, tokens, tokens_bare type, tokens_bare value, Token.bare]
  | .group kind opener closer children =>
      simpa [bare, tokens, allTokens_eq_flatMap, Token.bare] using allTokens_bare children

theorem allTokens_bare (fs : List Form) :
    (fs.map bare).flatMap tokens = (fs.flatMap tokens).map Token.bare := by
  match fs with
  | [] => rfl
  | f :: fs => simpa [tokens_bare f] using allTokens_bare fs

end

end Form

namespace Parser

theorem parse_spelled {fs : List Form} {cs : List Char}
    (h : Scanner.Spells cs ((fs.flatMap Form.tokens).map Token.lexeme)) :
    (parse cs).map Event.bare = fs.map fun f => .form f.bare := by
  obtain ⟨ts, hts, hlexemes⟩ := h .start
  have hscan : scan cs = ts.map .ok := ((Scanner.scan_scans cs).agree hts).2 rfl
  have hbare : ts.map Token.bare = (fs.map Form.bare).flatMap Form.tokens := by
    have hl := congrArg (List.map fun l => (⟨l, .nowhere⟩ : Token)) hlexemes
    rw [List.map_map, List.map_map] at hl
    exact hl.trans (Form.allTokens_bare fs).symm
  have hitems : (itemsOf cs).map Item.bare =
      ((fs.map Form.bare).flatMap Form.tokens).map .token := by
    rw [← hbare, itemsOf, hscan]
    simp [Function.comp_def, Item.ofScanned, Item.bare]
  rw [parse_bare, hitems, run_forms, List.map_map]
  rfl

theorem parseForms_of_spelled {fs : List Form} {cs : List Char}
    (h : Scanner.Spells cs ((fs.flatMap Form.tokens).map Token.lexeme)) :
    parseErrors cs = [] ∧ (parseForms cs).map Form.bare = fs.map Form.bare := by
  have hparse := parse_spelled h
  simp only [parseErrors, parseForms]
  generalize parse cs = events at hparse ⊢
  clear h
  induction events generalizing fs with
  | nil =>
      obtain rfl : fs = [] := by simpa using hparse.symm
      exact ⟨rfl, rfl⟩
  | cons event events ih =>
      cases fs with
      | nil => simp at hparse
      | cons f fs =>
          simp only [List.map_cons, List.cons.injEq] at hparse
          obtain ⟨herrors, hforms⟩ := ih hparse.2
          cases event with
          | form g =>
              have hg : g.bare = f.bare := by simpa [Event.bare] using hparse.1
              refine ⟨herrors, ?_⟩
              show g.bare :: _ = _
              rw [hg, hforms, List.map_cons]
          | _ => simp [Event.bare] at hparse

theorem parse_joined {fs : List Form} (hfs : ∀ f ∈ fs, f.Spellable) {cs : List Char}
    (hcs : Text.Joined (fs.map Form.text) cs) :
    (parse cs).map Event.bare = fs.map fun f => .form f.bare := by
  have hspells := Form.spells_joined fs hfs hcs (by simp) .nil
  rw [List.append_nil, List.append_nil] at hspells
  exact parse_spelled hspells

theorem spellable_of_mem_parseForms {text : List Char} {f : Form} (hf : f ∈ parseForms text) :
    f.Spellable :=
  fun _ ht => (Scanner.scan_scans text).spellable
    (mem_scan_of_form_mem_parse (mem_parseForms_iff.mp hf) ht)

/-- Printed forms with a blank between neighbours are parsed as the same forms, without an error; and
every form that was parsed can be printed so. -/
theorem parsing_inverts_printing :
    (∀ (fs : List Form) (text : List Char), (∀ f ∈ fs, f.Spellable) →
      Text.Joined (fs.map Form.text) text →
      (parse text).map Event.bare = fs.map fun f => .form f.bare) ∧
    ∀ source text : List Char, Text.Joined ((parseForms source).map Form.text) text →
      (parse text).map Event.bare = (parseForms source).map fun f => .form f.bare :=
  ⟨fun _ _ hfs htext => parse_joined hfs htext,
    fun _ _ htext => parse_joined (fun _ => spellable_of_mem_parseForms) htext⟩

theorem parsing_inverts_printing_of_ascription :
    let items : List Form := [.int 16 .nowhere, .marked .quote .nowhere (.symbol "x0" .nowhere)]
    let f := Form.ascription .nowhere (.symbol "t" .nowhere) (.group .brace .nowhere .nowhere items)
    let g := Form.int 0 .nowhere
    let text := f.text.toList ++ '\t' :: g.text.toList
    f.Spellable ∧ g.Spellable ∧ Text.Joined [f.text, g.text] text ∧
      (parse text).map Event.bare = [.form f.bare, .form g.bare] := by
  intro items f g text
  have hf : f.Spellable := by decide +kernel
  have hg : g.Spellable := by decide +kernel
  have htext : Text.Joined [f.text, g.text] text := .cons (by decide) .single
  exact ⟨hf, hg, htext, parsing_inverts_printing.1 [f, g] text (by simp [hf, hg]) htext⟩

end Parser

end SmallLisp
