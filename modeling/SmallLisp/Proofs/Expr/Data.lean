import SmallLisp.Expr.Equal
import SmallLisp.Layout.Doc
import SmallLisp.Proofs.Expr.Reading
import SmallLisp.Proofs.Form.Printing

namespace SmallLisp

theorem Special.spellable_name (kind : Special) : (Lexeme.symbol kind.name).Spellable := by
  cases kind <;> decide

theorem Primitive.spellable_name (op : Primitive) : (Lexeme.symbol op.name).Spellable := by
  cases op <;> decide

namespace Expr

inductive Data : Expr → Prop
  | int {n : Int64} {p : Provenance} : (Lexeme.number n).Spellable → Data (.int n p)
  | symbol {name : String} {p : Provenance} : (Lexeme.symbol name).Spellable → Data (.symbol name p)
  | special {kind : Special} {p : Provenance} : Data (.special kind p)
  | list {items : List Expr} {p : Provenance} : (∀ x ∈ items, Data x) → Data (.list items p)

theorem structural_data (file : Option FileRef) : Structural file (fun _ => True) Data where
  join _ _ := trivial
  list _ hitems := .list hitems
  special _ _ _ := .special
  builder op _ _ := .symbol op.spellable_name

mutual

def form : Expr → Form
  | .int n _ => .int n .nowhere
  | .symbol name _ => .symbol name .nowhere
  | .special kind _ => .symbol kind.name .nowhere
  | .list items _ => .group .paren .nowhere .nowhere (forms items)
  | e => .symbol e.text .nowhere

def forms : List Expr → List Form
  | [] => []
  | x :: xs => x.form :: forms xs

end

mutual

/-- The expression with names in the place of special forms. Captured bindings stay as they are. -/
def named : Expr → Expr
  | .special kind p => .symbol kind.name p
  | .list items p => .list (namedItems items) p
  | .map entries p => .map (namedEntries entries) p
  | .function x xp body env p => .function x xp body.named env p
  | .expander x xp body env p => .expander x xp body.named env p
  | e => e

def namedItems : List Expr → List Expr
  | [] => []
  | x :: xs => x.named :: namedItems xs

def namedEntries : List (Expr × Expr) → List (Expr × Expr)
  | [] => []
  | (k, v) :: es => (k.named, v.named) :: namedEntries es

end

theorem forms_eq_map (xs : List Expr) : forms xs = xs.map form := by
  induction xs with
  | nil => rfl
  | cons x xs ih => simp [forms, ih]

theorem namedItems_eq_map (xs : List Expr) : namedItems xs = xs.map named := by
  induction xs with
  | nil => rfl
  | cons x xs ih => simp [namedItems, ih]

theorem isShorthand_form (e : Expr) : e.form.isShorthand = false := by
  cases e <;> rfl

theorem readItems_forms {file : Option FileRef} {xs : List Expr}
    (h : ∀ x ∈ xs, ∃ y, x.form.read file = .ok y ∧ x.named.equal y = true) :
    ∃ ys, Form.readItems file (xs.map form) = .ok ys ∧ equalLists (xs.map named) ys = true := by
  induction xs with
  | nil => exact ⟨[], rfl, rfl⟩
  | cons x xs ih =>
      obtain ⟨hx, hxs⟩ := List.forall_mem_cons.mp h
      obtain ⟨y, hread, hy⟩ := hx
      obtain ⟨ys, hreads, hys⟩ := ih hxs
      refine ⟨y :: ys, ?_, by simp [equalLists, hy, hys]⟩
      rw [List.map_cons, Form.readItems_cons file (.inl x.isShorthand_form), hread, hreads]
      rfl

theorem Data.read_form {e : Expr} (he : e.Data) (file : Option FileRef) :
    ∃ e', e.form.read file = .ok e' ∧ e.named.equal e' = true := by
  induction he with
  | int _ => exact ⟨_, rfl, by simp [named, equal]⟩
  | symbol _ => exact ⟨_, rfl, by simp [named, equal]⟩
  | special => exact ⟨_, rfl, by simp [named, equal]⟩
  | @list items _ _ ih =>
      obtain ⟨ys, hreads, hys⟩ := readItems_forms ih
      have hhead : ∀ f ∈ (items.map form).head?, f.isShorthand = false := by
        intro f hf
        obtain ⟨x, _, rfl⟩ := List.mem_map.mp (List.mem_of_mem_head? hf)
        exact x.isShorthand_form
      rw [form, forms_eq_map, Form.read_paren file _ _ hhead, hreads]
      exact ⟨_, rfl, by simp [named, namedItems_eq_map, equal, hys]⟩

theorem Data.spellable_form {e : Expr} (he : e.Data) : e.form.Spellable := by
  induction he with
  | int hn => simpa [form, Form.Spellable, Form.tokens] using hn
  | symbol hname => simpa [form, Form.Spellable, Form.tokens] using hname
  | @special kind p => simpa [form, Form.Spellable, Form.tokens] using kind.spellable_name
  | list _ ih =>
      intro t ht
      simp only [form, forms_eq_map, Form.tokens, Form.allTokens_eq_flatMap, List.mem_cons,
        List.mem_append, List.mem_flatMap, List.mem_map, List.not_mem_nil, or_false] at ht
      rcases ht with rfl | ⟨f, ⟨x, hx, rfl⟩, ht⟩ | rfl
      · exact trivial
      · exact ih x hx t ht
      · exact trivial

theorem docs_eq_of_equalLists {xs : List Expr}
    (h : ∀ x ∈ xs, ∀ y, x.named.equal y = true → y.doc = x.doc) {ys : List Expr}
    (hys : equalLists (xs.map named) ys = true) : docs ys = docs xs := by
  induction xs generalizing ys with
  | nil =>
      cases ys with
      | nil => rfl
      | cons y ys => simp [equalLists] at hys
  | cons x xs ih =>
      cases ys with
      | nil => simp [equalLists] at hys
      | cons y ys =>
          obtain ⟨hx, hxs⟩ := List.forall_mem_cons.mp h
          simp only [List.map_cons, equalLists, Bool.and_eq_true] at hys
          rw [docs, docs, hx y hys.1, ih hxs hys.2]

theorem Data.doc_eq_of_equal {e e' : Expr} (he : e.Data) (h : e.named.equal e' = true) :
    e'.doc = e.doc := by
  induction he generalizing e' with
  | int _ =>
      cases e' <;> simp [named, equal] at h
      simp [doc, h]
  | symbol _ =>
      cases e' <;> simp [named, equal] at h
      simp [doc, h]
  | special =>
      cases e' <;> simp [named, equal] at h
      simp [doc, h]
  | list _ ih =>
      cases e' with
      | list ys q =>
          rw [named, namedItems_eq_map, equal] at h
          rw [doc, doc, docs_eq_of_equalLists (fun x hx y => ih x hx) h]
      | _ => simp [named, equal] at h

variable (file : Option FileRef)

theorem Data.read_of_bare {e : Expr} (he : e.Data) {f : Form} (hf : f.bare = e.form.bare) :
    ∃ e', f.read file = .ok e' ∧ e.named.equal e' = true := by
  obtain ⟨e', hread, hequal⟩ := he.read_form file
  have hbare : Form.bareRead bare (f.read file) = Form.bareRead bare (e.form.read file) := by
    rw [← Form.read_bare f file file, hf, Form.read_bare]
  rw [hread] at hbare
  cases hr : f.read file with
  | error err => simp [hr, Form.bareRead] at hbare
  | ok e'' =>
      have he'' : e''.bare = e'.bare := by simpa [hr, Form.bareRead] using hbare
      refine ⟨e'', rfl, ?_⟩
      rw [← equal_bare, he'', equal_bare]
      exact hequal

theorem readAll_of_bare {es : List Expr} (hes : ∀ e ∈ es, e.Data) {fs : List Form}
    (hfs : fs.map Form.bare = (es.map form).map Form.bare) :
    Form.readErrors file fs = [] ∧
      equalLists (es.map named) (Form.readAll file fs) = true := by
  induction es generalizing fs with
  | nil =>
      obtain rfl : fs = [] := by simpa using hfs
      exact ⟨rfl, rfl⟩
  | cons e es ih =>
      cases fs with
      | nil => simp at hfs
      | cons f fs =>
          simp only [List.map_cons, List.cons.injEq] at hfs
          obtain ⟨he, hes⟩ := List.forall_mem_cons.mp hes
          obtain ⟨e', hread, hequal⟩ := he.read_of_bare file hfs.1
          obtain ⟨herrors, hall⟩ := ih hes hfs.2
          refine ⟨?_, ?_⟩
          · rw [Form.readErrors, List.filterMap_cons, hread]
            exact herrors
          · rw [Form.readAll, List.filterMap_cons, hread, List.map_cons]
            show (e.named.equal e' && _) = true
            rw [hequal]
            exact hall

end Expr

theorem Form.data_of_read {f : Form} (hf : f.Spellable) {file : Option FileRef} {e : Expr}
    (h : f.read file = .ok e) : e.Data := by
  refine read_structural (Expr.structural_data file) f (fun t ht => ?_) e h
  have hspell := hf t ht
  exact ⟨trivial, fun hl => .int (hl ▸ hspell), fun hl => .symbol (hl ▸ hspell)⟩

theorem Form.data_of_mem_readAll {file : Option FileRef} {text : List Char} {e : Expr}
    (h : e ∈ Form.readAll file (parseForms text)) : e.Data := by
  obtain ⟨f, hf, hread⟩ := mem_readAll_iff.mp h
  exact data_of_read (Parser.spellable_of_mem_parseForms hf) hread

end SmallLisp
