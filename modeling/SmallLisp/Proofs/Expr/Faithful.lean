import SmallLisp.Proofs.Expr.Blocks
import SmallLisp.Proofs.Form.Slices
import SmallLisp.Proofs.Token.Numeral

namespace SmallLisp

open Provenance (written)
open SmallLisp.Span (Ascending Reaches Cover Joins)

def Sigil.special : Sigil → Special
  | .ascription => .the
  | .mark m => m.special

/-- What is read at a span of a file, down to all its parts. The name of an operation at the head of a list
may also be put there for an opening bracket. -/
inductive Expr.Faithful (file : File) : Span → Expr → Prop
  | int {s : Span} {w : List Char} {n : Nat} {value : Int64} :
      file.slice? s = some w → Numeral w n → value.toInt = n →
      Faithful file s (.int value (written (some file.toFileRef) s))
  | symbol {s : Span} {name : String} : file.slice? s = some name.toList →
      Faithful file s (.symbol name (written (some file.toFileRef) s))
  | special {s : Span} {sigil : Sigil} : file.slice? s = some [sigil.char] →
      Faithful file s (.special sigil.special (written (some file.toFileRef) s))
  | list {s : Span} {spans : List Span} {items : List Expr} :
      List.Forall₂ (Faithful file) spans items → Ascending spans → (∀ t ∈ spans, t.Within s) →
      Faithful file s (.list items (written (some file.toFileRef) s))
  | built {s opener : Span} {spans : List Span} {kind : Delimiter} {op : Primitive}
      {items : List Expr} : Form.builder? kind = some op → file.slice? opener = some [kind.opening] →
      List.Forall₂ (Faithful file) spans items → Ascending (opener :: spans) →
      (∀ t ∈ opener :: spans, t.Within s) →
      Faithful file s (.list (.symbol op.name (written (some file.toFileRef) opener) :: items)
        (written (some file.toFileRef) s))

variable {file : File}

theorem Numeral.under_span (pre w post : List Char) :
    (Numeral.span pre w).under (pre ++ (w ++ post)) = w := by
  rw [Numeral.span, Span.under, Position.advance_start_offset, Position.advance_start_offset,
    Int.toNat_natCast, Int.toNat_natCast, ← List.append_assoc, List.take_left, List.drop_left]

namespace Token

theorem slice_of_mem_tokenize {lexeme : Lexeme} {s : Span}
    (h : ⟨lexeme, s⟩ ∈ (tokenize file.contents).1) (hkind : lexeme.kind ≠ .number) :
    file.slice? s = some lexeme.text.toList := by
  have hscan := Scanner.mem_tokens_iff.mp h
  have hreads : lexeme.Reads (s.under file.contents) := (Scanner.exact_of_mem_scan hscan).2
  rw [File.slice?_eq_under (Scanner.liesIn_of_mem_scan hscan)]
  cases lexeme with
  | number value => exact absurd rfl hkind
  | symbol text => exact congrArg some (Eq.symm hreads)
  | opener d => exact congrArg some (Eq.symm hreads)
  | closer d => exact congrArg some (Eq.symm hreads)
  | sigil c => exact congrArg some (Eq.symm hreads)

theorem numeral_of_mem_tokenize {value : Int64} {s : Span}
    (h : ⟨.number value, s⟩ ∈ (tokenize file.contents).1) :
    ∃ w n, file.slice? s = some w ∧ Numeral w n ∧ value.toInt = n := by
  have hscan := Scanner.mem_tokens_iff.mp h
  have hslice := File.slice?_eq_under (Scanner.liesIn_of_mem_scan hscan)
  obtain ⟨pre, w, post, n, hstands, heq⟩ := Numeral.exists_stands hscan rfl
  rw [Numeral.number_eq] at heq
  split at heq
  · next hlt =>
      cases heq
      refine ⟨w, n, ?_, hstands.starts.numeral, Int64.toInt_ofNat_of_lt hlt⟩
      rw [hslice, hstands.text_eq, Numeral.under_span]
  · cases heq

end Token

namespace Form

def Stands (file : File) (f : Form) : Prop := f.tokens.Sublist (tokenize file.contents).1

theorem Stands.ascending {f : Form} (h : f.Stands file) : Ascending f.places :=
  ((inOrder_tokenize file.contents).sublist h).ascending

theorem Stands.faithful_special {f : Form} (h : f.Stands file) {sigil : Sigil} {s : Span}
    (hmem : ⟨.sigil sigil, s⟩ ∈ f.tokens) :
    Expr.Faithful file s (.special sigil.special (written (some file.toFileRef) s)) := by
  have hslice := Token.slice_of_mem_tokenize (h.subset hmem) nofun
  rw [Lexeme.text, Char.toString, String.toList_singleton] at hslice
  exact .special hslice

theorem Stands.faithful_mark {mark : Mark} {site : Span} {operand : Form}
    (h : (marked mark site operand).Stands file) :
    Expr.Faithful file site (.special mark.special (written (some file.toFileRef) site)) := by
  have hmem : (⟨.sigil (.mark mark), site⟩ : Token) ∈ (marked mark site operand).tokens := by
    simp [tokens]
  exact h.faithful_special hmem

def ReadsFaithfully (file : File) (f : Form) : Prop :=
  ∀ e, f.read (some file.toFileRef) = .ok e → e.Faithful file f.span

end Form

theorem Expr.faithful_list {s : Span} {ss ps spans : List Span} {items : List Expr} (hcover : Cover ss ps)
    (hps : Ascending ps) (hs : Reaches s ps) (hsub : spans.Sublist ss)
    (hitems : List.Forall₂ (Expr.Faithful file) spans items) :
    Expr.Faithful file s (.list items (written (some file.toFileRef) s)) :=
  .list hitems ((hcover.ascending hps).sublist hsub) fun t ht => hcover.within hps hs t (hsub.subset ht)

namespace Block

open Form (Stands ReadsFaithfully)

theorem Reads.exists_faithful {b : Block} {e : Expr} (h : b.Reads (some file.toFileRef) e)
    (hforms : ∀ f ∈ b.forms, f.Stands file) (hplaces : Ascending (b.forms.flatMap Form.places))
    (hparts : ∀ f ∈ b.forms, ∀ g : Form, g.PartOf f → g.ReadsFaithfully file) :
    ∃ s, Reaches s (b.forms.flatMap Form.places) ∧ e.Faithful file s := by
  induction h with
  | @form f e hread =>
      have hf : f ∈ forms ⟨[], some f⟩ := by simp [forms]
      have hreaches := f.reaches_places (hforms f hf).ascending
      exact ⟨f.span, by simpa [forms] using hreaches, hparts f hf f .whole e hread⟩
  | @bodiless s x hread =>
      have hs : s.form ∈ forms ⟨[s], none⟩ := by simp [forms]
      have hascending := (hforms s.form hs).ascending
      have hreaches := s.form.reaches_places hascending
      refine ⟨s.form.span, by simpa [forms] using hreaches, ?_⟩
      have hspecial := (hforms s.form hs).faithful_mark
      have hx := hparts s.form hs s.param (.operand .whole) x hread
      exact Expr.faithful_list (Form.cover_outline hascending) hascending hreaches (.refl _)
        (.cons hspecial (.cons hx .nil))
  | @function s run final last x body hread _ hlast ih =>
      have hcons : forms ⟨s :: run, final⟩ = s.form :: forms ⟨run, final⟩ := rfl
      rw [hcons] at hforms hplaces hparts ⊢
      obtain ⟨hs, hforms⟩ := List.forall_mem_cons.mp hforms
      obtain ⟨hsparts, hparts⟩ := List.forall_mem_cons.mp hparts
      obtain ⟨t, hreaches, hbody⟩ := ih hforms (hplaces.sublist (List.sublist_append_right _ _)) hparts
      -- The function is joined from its mark and its last form, and covers mark, parameter and body.
      have hjoins : Joins (s.form.span.join last.span) ((s.form :: forms ⟨run, final⟩).map Form.span) := by
        refine ⟨s.form.span, rfl, last.span, ?_, rfl⟩
        rw [List.map_cons, List.getLast?_cons, List.getLast?_map, hlast]
        rfl
      have hspan := hjoins.reaches (Form.cover_spans hplaces) hplaces
      have hcover := (Form.cover_outline hs.ascending).append (.cons hreaches .nil)
      rw [List.append_nil] at hcover
      have hspecial := hs.faithful_mark
      have hx := hsparts s.param (.operand .whole) x hread
      exact ⟨_, hspan, Expr.faithful_list hcover hplaces hspan (.refl _)
        (.cons hspecial (.cons hx (.cons hbody .nil)))⟩

theorem exists_faithful_of_blocks {bs : List Block} {items : List Expr}
    (h : List.Forall₂ (Reads (some file.toFileRef)) bs items)
    (hforms : ∀ f ∈ bs.flatMap forms, f.Stands file)
    (hplaces : Ascending ((bs.flatMap forms).flatMap Form.places))
    (hparts : ∀ f ∈ bs.flatMap forms, ∀ g : Form, g.PartOf f → g.ReadsFaithfully file) :
    ∃ spans, Cover spans ((bs.flatMap forms).flatMap Form.places) ∧
      List.Forall₂ (Expr.Faithful file) spans items := by
  induction h with
  | nil => exact ⟨[], .nil, .nil⟩
  | @cons b e bs items hb _ ih =>
      rw [List.flatMap_cons] at hforms hplaces hparts ⊢
      rw [List.flatMap_append] at hplaces ⊢
      obtain ⟨hbforms, hforms⟩ := List.forall_mem_append.mp hforms
      obtain ⟨hbparts, hparts⟩ := List.forall_mem_append.mp hparts
      obtain ⟨s, hs, he⟩ := hb.exists_faithful hbforms
        (hplaces.sublist (List.sublist_append_left _ _)) hbparts
      obtain ⟨spans, hspans, hitems⟩ := ih hforms
        (hplaces.sublist (List.sublist_append_right _ _)) hparts
      exact ⟨s :: spans, .cons hs hspans, .cons he hitems⟩

end Block

namespace Form

theorem Stands.of_mem {f : Form} {fs : List Form}
    (h : (allTokens fs).Sublist (tokenize file.contents).1) (hf : f ∈ fs) : f.Stands file :=
  (tokens_sublist_of_mem hf).trans h

theorem exists_faithful_of_readItems {fs : List Form} {items : List Expr}
    (h : readItems (some file.toFileRef) fs = .ok items)
    (htokens : (allTokens fs).Sublist (tokenize file.contents).1)
    (hparts : ∀ f ∈ fs, ∀ g : Form, g.PartOf f → g.ReadsFaithfully file) :
    ∃ spans, Cover spans (fs.flatMap places) ∧ List.Forall₂ (Expr.Faithful file) spans items := by
  have hcuts : (Block.cut [] fs).flatMap Block.forms = fs := (Block.cuts_cut [] fs).forms_eq
  have hplaces : Ascending (fs.flatMap places) := by
    have hascending := ((inOrder_tokenize file.contents).sublist htokens).ascending
    rwa [allTokens_eq_flatMap, List.map_flatMap] at hascending
  rw [readItems_eq_ok] at h
  have hblocks := Block.exists_faithful_of_blocks h
  rw [hcuts] at hblocks
  exact hblocks (fun f hf => .of_mem htokens hf) hplaces hparts

theorem readsFaithfully_group {kind : Delimiter} {opener closer : Span} {children : List Form}
    (h : (group kind opener closer children).Stands file)
    (hparts : ∀ p ∈ children, ∀ g : Form, g.PartOf p → g.ReadsFaithfully file) :
    (group kind opener closer children).ReadsFaithfully file := by
  intro e he
  obtain ⟨front, items, hfront, hitems, _, rfl⟩ := (read_group_eq_ok _ _ _ _ _).mp he
  have hascending := h.ascending
  have hreaches := (group kind opener closer children).reaches_places hascending
  have htokens : (allTokens children).Sublist (tokenize file.contents).1 :=
    .trans (.cons _ (List.sublist_append_left _ _)) h
  have hcoverOf {inner : List Span} (hinner : Cover inner (children.flatMap places)) :
      Cover (opener :: (inner ++ [closer])) (group kind opener closer children).places := by
    rw [places_group]
    exact .cons (Span.reaches_self opener) (hinner.append (Span.cover_self [closer]))
  have hopener : file.slice? opener = some [kind.opening] := by
    have hmem : (⟨.opener kind, opener⟩ : Token) ∈ (group kind opener closer children).tokens := by
      simp [tokens]
    have hslice := Token.slice_of_mem_tokenize (h.subset hmem) nofun
    rwa [Lexeme.text, Char.toString, String.toList_singleton] at hslice
  have haside := setAside_forms kind children
  generalize setAside kind children = pair at hfront hitems haside
  obtain ⟨aside, rest⟩ := pair
  cases hfront with
  | builder =>
      obtain rfl : rest = children := haside
      obtain ⟨spans, hspans, hitems⟩ := exists_faithful_of_readItems hitems htokens hparts
      have hcover := hcoverOf hspans
      cases hbuilder : builder? kind with
      | none =>
          have hsub : spans.Sublist (opener :: (spans ++ [closer])) :=
            .cons _ (List.sublist_append_left _ _)
          exact Expr.faithful_list hcover hascending hreaches hsub hitems
      | some op =>
          have hsub : (opener :: spans).Sublist (opener :: (spans ++ [closer])) :=
            .cons_cons _ (List.sublist_append_left _ _)
          exact .built hbuilder hopener hitems ((hcover.ascending hascending).sublist hsub)
            fun t ht => hcover.within hascending hreaches t (hsub.subset ht)
  | @function s x hx =>
      obtain rfl : s.form :: rest = children := haside
      obtain ⟨hsparts, hparts⟩ := List.forall_mem_cons.mp hparts
      obtain ⟨spans, hspans, hitems⟩ := exists_faithful_of_readItems hitems
        (.trans (List.sublist_append_right _ _) htokens) hparts
      have hs : s.form.Stands file := .of_mem htokens List.mem_cons_self
      have hcover := hcoverOf ((cover_outline hs.ascending).append hspans)
      have hspecial := hs.faithful_mark
      have hx := hsparts s.param (.operand .whole) x hx
      exact Expr.faithful_list hcover hascending hreaches
        (.cons _ (List.sublist_append_left _ _)) (.cons hspecial (.cons hx hitems))

theorem readsFaithfully_of_parts {f : Form} (h : f.Stands file)
    (hparts : ∀ p ∈ f.parts, ∀ g : Form, g.PartOf p → g.ReadsFaithfully file) :
    f.ReadsFaithfully file := by
  intro e he
  have hascending := h.ascending
  have hreaches := f.reaches_places hascending
  have hcover := cover_outline hascending
  cases f with
  | int value site =>
      cases he
      have hmem : (⟨.number value, site⟩ : Token) ∈ (int value site).tokens := by simp [tokens]
      obtain ⟨w, n, hslice, hnumeral, hvalue⟩ := Token.numeral_of_mem_tokenize (h.subset hmem)
      exact .int hslice hnumeral hvalue
  | symbol name site =>
      cases he
      have hmem : (⟨.symbol name, site⟩ : Token) ∈ (symbol name site).tokens := by simp [tokens]
      exact .symbol (Token.slice_of_mem_tokenize (h.subset hmem) nofun)
  | marked mark site operand =>
      rw [read, bind_eq_ok] at he
      obtain ⟨x, hx, ⟨⟩⟩ := he
      have hspecial := h.faithful_mark
      have hoperand := hparts operand (by simp [parts]) operand .whole x hx
      exact Expr.faithful_list hcover hascending hreaches (.refl _)
        (.cons hspecial (.cons hoperand .nil))
  | ascription site type value =>
      rw [read, bind_eq_ok] at he
      obtain ⟨v, hv, he⟩ := he
      obtain ⟨t, ht, ⟨⟩⟩ := bind_eq_ok.mp he
      have hmem : (⟨.sigil .ascription, site⟩ : Token) ∈ (ascription site type value).tokens := by
        simp [tokens]
      have hspecial := h.faithful_special hmem
      have htype := hparts type (by simp [parts]) type .whole t ht
      have hvalue := hparts value (by simp [parts]) value .whole v hv
      exact Expr.faithful_list hcover hascending hreaches (.refl _)
        (.cons hspecial (.cons htype (.cons hvalue .nil)))
  | group kind opener closer children => exact readsFaithfully_group h hparts e he

theorem readsFaithfully_of_partOf (f : Form) (h : f.Stands file) :
    ∀ g : Form, g.PartOf f → g.ReadsFaithfully file := by
  have hparts : ∀ p ∈ f.parts, ∀ g : Form, g.PartOf p → g.ReadsFaithfully file := fun p hp =>
    readsFaithfully_of_partOf p ((partOf_iff.mpr (.inr ⟨p, hp, .whole⟩)).sublist.trans h)
  intro g hg
  rcases partOf_iff.mp hg with rfl | ⟨p, hp, hg⟩
  · exact readsFaithfully_of_parts h hparts
  · exact hparts p hp g hg
termination_by sizeOf f
decreasing_by exact sizeOf_lt_of_mem_parts hp

/-- Whatever is read from a file is read at the span of a form of the file, and faithful to it. -/
theorem expressions_are_faithful (file : File) :
    ∀ e ∈ readAll (some file.toFileRef) (parseForms file.contents),
      ∃ f ∈ parseForms file.contents, f.read (some file.toFileRef) = .ok e ∧ e.Faithful file f.span := by
  intro e he
  obtain ⟨f, hf, hread⟩ := mem_readAll_iff.mp he
  have hstands : f.Stands file :=
    (tokens_sublist_of_mem hf).trans (Parser.allTokens_forms_sublist file.contents)
  exact ⟨f, hf, hread, readsFaithfully_of_partOf f hstands f .whole e hread⟩

theorem expressions_are_faithful_of_function_in_list :
    -- A mark, its parameter and the numeral behind them are read as one function.
    let file : File := ⟨⟨0, ""⟩, ['[', '\\', 'x', ' ', '0', 'x', 'F', ']']⟩
    let place (i j : Int) : Span := ⟨⟨i, 0, i⟩, ⟨j, 0, j⟩⟩
    let site (i j : Int) : Provenance := written (some file.toFileRef) (place i j)
    let function : Expr := .list [.special .lambda (site 1 2), .symbol "x" (site 2 3), .int 15 (site 4 7)]
      (site 1 7)
    let e : Expr := .list [.symbol "list" (site 0 1), function] (site 0 8)
    e ∈ readAll (some file.toFileRef) (parseForms file.contents) ∧ e.Faithful file (place 0 8) := by
  intro file place site function e
  have hread : readAll (some file.toFileRef) (parseForms file.contents) = [e] := rfl
  have he : e ∈ readAll (some file.toFileRef) (parseForms file.contents) :=
    hread ▸ List.mem_singleton_self e
  obtain ⟨f, hf, _, hfaithful⟩ := expressions_are_faithful file e he
  have hspans : (parseForms file.contents).map span = [place 0 8] := by decide +kernel
  have hspan : f.span ∈ [place 0 8] := hspans ▸ List.mem_map_of_mem hf
  exact ⟨he, List.mem_singleton.mp hspan ▸ hfaithful⟩

end Form

end SmallLisp
