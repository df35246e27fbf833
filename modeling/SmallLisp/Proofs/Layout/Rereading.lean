import SmallLisp.Cli.Command
import SmallLisp.Proofs.Expr.Data
import SmallLisp.Proofs.Layout.Laid

namespace SmallLisp

namespace Scanner

/-- A text that spells lexemes if what follows it cannot be a part of a symbol. -/
def SpellsAhead (cs : List Char) (lexemes : List Lexeme) : Prop :=
  ∀ ⦃rest : List Char⦄ ⦃others : List Lexeme⦄, (∀ c ∈ rest.head?, isSymbolChar c = false) →
    Spells rest others → Spells (cs ++ rest) (lexemes ++ others)

end Scanner

open Scanner

namespace Doc

variable {cs rest : List Char}

theorem Gap.spells {isFirst : Bool} (h : Gap isFirst cs) {lexemes : List Lexeme}
    (hrest : Spells rest lexemes) : Spells (cs ++ rest) lexemes := by
  cases h with
  | first => exact hrest
  | space => exact hrest.blank Text.isBlank_space
  | line n =>
      have hmargin : Spells (List.replicate n ' ' ++ rest) lexemes := by
        induction n with
        | zero => exact hrest
        | succ n ih => exact ih.blank Text.isBlank_space
      exact hmargin.blank Text.isBlank_newline

theorem LaidItems.head {ds : List Doc} (h : LaidItems false ds cs)
    (hrest : ∀ c ∈ rest.head?, isSymbolChar c = false) :
    ∀ c ∈ (cs ++ rest).head?, isSymbolChar c = false := by
  cases h with
  | nil => exact hrest
  | cons hgap _ _ =>
      cases hgap with
      | space => simp [isSymbolChar_of_isBlank Text.isBlank_space]
      | line n => simp [isSymbolChar_of_isBlank Text.isBlank_newline]

end Doc

namespace Expr

theorem spells_laidItems {xs : List Expr}
    (h : ∀ x ∈ xs, ∀ cs, x.doc.Laid cs → SpellsAhead cs (x.form.tokens.map Token.lexeme))
    {isFirst : Bool} {cs : List Char} (hcs : Doc.LaidItems isFirst (xs.map doc) cs) :
    SpellsAhead cs (((xs.map form).flatMap Form.tokens).map Token.lexeme) := by
  intro rest others hrest hothers
  induction xs generalizing isFirst cs with
  | nil =>
      cases hcs
      exact hothers
  | cons x xs ih =>
      obtain ⟨hx, hxs⟩ := List.forall_mem_cons.mp h
      cases hcs with
      | cons hgap hlaid hitems =>
          have htail := ih hxs hitems
          have hall := hgap.spells (hx _ hlaid (hitems.head hrest) htail)
          simpa using hall

theorem Data.spells_laid {e : Expr} (he : e.Data) {cs : List Char} (hcs : e.doc.Laid cs) :
    SpellsAhead cs (e.form.tokens.map Token.lexeme) := by
  induction he generalizing cs with
  | int hspell =>
      cases hcs
      exact fun _ _ => .number hspell
  | symbol hspell =>
      cases hcs
      exact fun _ _ => .symbol hspell
  | @special kind _ =>
      cases hcs
      exact fun _ _ => .symbol kind.spellable_name
  | @list items _ _ ih =>
      rw [doc, docs_eq_map] at hcs
      cases hcs with
      | list hitems =>
          intro rest others hrest hothers
          have hclosed : Spells (')' :: rest) (.closer .paren :: others) := hothers.closer .paren
          have hend : ∀ c ∈ (')' :: rest).head?, isSymbolChar c = false := by
            rintro c ⟨⟩
            exact isSymbolChar_closing .paren
          have hchildren := spells_laidItems (fun x hx cs => ih x hx) hitems hend hclosed
          have hall := hchildren.opener .paren
          simpa [form, forms_eq_map, Form.tokens, Form.allTokens_eq_flatMap, Delimiter.opening] using hall

end Expr

namespace Printer

variable {es : List Expr}

theorem spells_formatted (width : Nat) (hes : ∀ e ∈ es, e.Data) :
    Spells (String.join (es.map (new width).format)).toList
      (((es.map Expr.form).flatMap Form.tokens).map Token.lexeme) := by
  rw [String.toList_join]
  induction es with
  | nil => exact .nil
  | cons e es ih =>
      obtain ⟨he, hes⟩ := List.forall_mem_cons.mp hes
      obtain ⟨cs, hlaid, hcs⟩ := laid_format inline_standard e (p := new width)
      have hrest := (ih hes).blank Text.isBlank_newline
      have hall := he.spells_laid hlaid (by simp [isSymbolChar_of_isBlank Text.isBlank_newline]) hrest
      simpa [hcs] using hall

theorem format_eq_of_equalLists (p : Printer) (hes : ∀ e ∈ es, e.Data) {es' : List Expr}
    (h : Expr.equalLists (es.map Expr.named) es' = true) : es'.map p.format = es.map p.format := by
  have hdocs : es'.map Expr.doc = es.map Expr.doc := by
    rw [← Expr.docs_eq_map, ← Expr.docs_eq_map]
    exact Expr.docs_eq_of_equalLists (fun e he e' => (hes e he).doc_eq_of_equal) h
  have hformat : es'.map p.format = (es'.map Expr.doc).map fun d => (p.layout d).text := by
    rw [List.map_map]
    rfl
  rw [hformat, hdocs, List.map_map]
  rfl

/-- What is printed of the expressions of a text is parsed and read without an error, as many
expressions as before, each the same but for names in the place of special forms. These are printed the
same again, so this is all there is to show of a file that holds what was printed. -/
theorem printed_text_is_fixpoint (text : List Char) (width : Nat) (name : String) :
    let printer := Printer.new width
    let exprs := Form.readAll none (parseForms text)
    let out := String.join (exprs.map printer.format)
    let again := Form.readAll none (parseForms out.toList)
    parseErrors out.toList = [] ∧ Form.readErrors none (parseForms out.toList) = [] ∧
      Expr.equalLists (exprs.map Expr.named) again = true ∧
      String.join (again.map printer.format) = out ∧
      Cli.readFile false printer name out.toList = ⟨out, []⟩ := by
  intro printer exprs out again
  have hdata : ∀ e ∈ exprs, e.Data := fun e => Form.data_of_mem_readAll
  have hspells : Spells out.toList (((exprs.map Expr.form).flatMap Form.tokens).map Token.lexeme) :=
    spells_formatted width hdata
  obtain ⟨hparsed, hforms⟩ := Parser.parseForms_of_spelled hspells
  obtain ⟨hread, hequal⟩ := Expr.readAll_of_bare none hdata hforms
  have hout : String.join (again.map printer.format) = out :=
    congrArg String.join (format_eq_of_equalLists printer hdata hequal)
  refine ⟨hparsed, hread, hequal, hout, ?_⟩
  simp only [Cli.readFile, Bool.false_eq_true, if_false, hparsed, hread, List.map_nil, List.append_nil]
  rw [hout]

end Printer

end SmallLisp
