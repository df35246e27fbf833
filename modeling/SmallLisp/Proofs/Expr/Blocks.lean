import SmallLisp.Proofs.Expr.Reading
import SmallLisp.Proofs.Form.Ordered
import Mathlib.Data.List.Forall2

namespace SmallLisp

open Provenance (written)

structure Shorthand where
  site : Span
  param : Form

namespace Shorthand

def form (s : Shorthand) : Form := .marked .lambda s.site s.param

theorem exists_of_isShorthand {f : Form} (h : ¬f.isShorthand = false) : ∃ s : Shorthand, f = s.form := by
  obtain ⟨site, param, rfl⟩ := Form.exists_eq_of_isShorthand (eq_true_of_ne_false h)
  exact ⟨⟨site, param⟩, rfl⟩

end Shorthand

structure Block where
  run : List Shorthand
  final : Option Form

theorem Form.bind_eq_ok {α β : Type} {x : Except ReadError α} {f : α → Except ReadError β} {b : β} :
    x >>= f = .ok b ↔ ∃ a, x = .ok a ∧ f a = .ok b := by
  cases x with
  | error e => simp [bind, Except.bind]
  | ok a => simp [bind, Except.bind]

namespace Block

def forms (b : Block) : List Form := b.run.map Shorthand.form ++ b.final.toList

def cut : List Shorthand → List Form → List Block
  | [], [] => []
  | run, [] => [⟨run, none⟩]
  | run, .marked .lambda site param :: fs => cut (run ++ [⟨site, param⟩]) fs
  | run, f :: fs => ⟨run, some f⟩ :: cut [] fs

theorem cut_nil {run : List Shorthand} (h : run ≠ []) : cut run [] = [⟨run, none⟩] := by
  rw [cut]
  exact h

theorem cut_shorthand (run : List Shorthand) (s : Shorthand) (fs : List Form) :
    cut run (s.form :: fs) = cut (run ++ [s]) fs := by
  rw [Shorthand.form, cut]

theorem cut_form {f : Form} (h : f.isShorthand = false) (run : List Shorthand) (fs : List Form) :
    cut run (f :: fs) = ⟨run, some f⟩ :: cut [] fs := by
  rw [cut]
  rintro site param rfl
  cases h

theorem cut_cons (s : Shorthand) {run : List Shorthand} {fs : List Form} (h : run ≠ [] ∨ fs ≠ []) :
    cut (s :: run) fs = (cut run fs).modifyHead fun b => ⟨s :: b.run, b.final⟩ := by
  induction fs generalizing run with
  | nil =>
      have hrun : run ≠ [] := h.resolve_right fun hfs => hfs rfl
      rw [cut_nil hrun, cut_nil (List.cons_ne_nil s run)]
      rfl
  | cons f fs ih =>
      by_cases hf : f.isShorthand = false
      · rw [cut_form hf, cut_form hf]
        rfl
      · obtain ⟨r, rfl⟩ := Shorthand.exists_of_isShorthand hf
        rw [cut_shorthand, cut_shorthand, List.cons_append, ih (.inl (by simp))]

/-- The blocks are the forms, in order; each but the last has a form behind its run, and that form is no
shorthand. -/
structure Cuts (fs : List Form) (bs : List Block) : Prop where
  forms_eq : bs.flatMap forms = fs
  ne_nil : ∀ b ∈ bs, b.forms ≠ []
  final : ∀ b ∈ bs, ∀ f ∈ b.final, f.isShorthand = false
  complete : ∀ b ∈ bs.dropLast, b.final ≠ none

theorem Cuts.cons {f : Form} (hf : f.isShorthand = false) (run : List Shorthand) {fs : List Form}
    {bs : List Block} (h : Cuts fs bs) :
    Cuts (run.map Shorthand.form ++ f :: fs) (⟨run, some f⟩ :: bs) where
  forms_eq := by simp [forms, h.forms_eq]
  ne_nil := List.forall_mem_cons.mpr ⟨by simp [forms], h.ne_nil⟩
  final := List.forall_mem_cons.mpr ⟨by simp [hf], h.final⟩
  complete := by
    intro b hb
    cases bs with
    | nil => cases hb
    | cons c cs =>
        rw [List.dropLast_cons_of_ne_nil (List.cons_ne_nil c cs)] at hb
        rcases List.mem_cons.mp hb with rfl | hb
        · exact Option.some_ne_none f
        · exact h.complete b hb

theorem cuts_cut (run : List Shorthand) (fs : List Form) :
    Cuts (run.map Shorthand.form ++ fs) (cut run fs) := by
  induction fs generalizing run with
  | nil =>
      by_cases hrun : run = []
      · subst hrun
        exact ⟨rfl, nofun, nofun, nofun⟩
      · rw [cut_nil hrun]
        exact ⟨by simp [forms], by simp [forms, hrun], by simp, nofun⟩
  | cons f fs ih =>
      by_cases hf : f.isShorthand = false
      · rw [cut_form hf]
        exact .cons hf run (ih [])
      · obtain ⟨s, rfl⟩ := Shorthand.exists_of_isShorthand hf
        have hs := ih (run ++ [s])
        rw [List.map_append, List.append_assoc] at hs
        rw [cut_shorthand]
        exact hs

/-- The blocks of the list `[\a \b c d \e \f]`. -/
example (a b e f : Shorthand) (site : Span) :
    let c : Form := .symbol "c" site
    let d : Form := .symbol "d" site
    cut [] [a.form, b.form, c, d, e.form, f.form] =
      [⟨[a, b], some c⟩, ⟨[], some d⟩, ⟨[e, f], none⟩] := rfl

/-- The expressions that blocks are read as: one function in another, each with the operand of its
shorthand, around what the form behind the run is read as. A function reaches up to the end of the block. -/
inductive Reads (file : Option FileRef) : Block → Expr → Prop
  | form {f : Form} {e : Expr} : f.read file = .ok e → Reads file ⟨[], some f⟩ e
  | bodiless {s : Shorthand} {x : Expr} : s.param.read file = .ok x →
      Reads file ⟨[s], none⟩ (.list [.special .lambda (written file s.site), x]
        (written file s.form.span))
  | function {s : Shorthand} {run : List Shorthand} {final : Option Form} {last : Form}
      {x body : Expr} : s.param.read file = .ok x → Reads file ⟨run, final⟩ body →
      (forms ⟨run, final⟩).getLast? = some last →
      Reads file ⟨s :: run, final⟩ (.list [.special .lambda (written file s.site), x, body]
        (written file (s.form.span.join last.span)))

variable {file : Option FileRef}

theorem reads_form_iff {f : Form} {e : Expr} : Reads file ⟨[], some f⟩ e ↔ f.read file = .ok e := by
  constructor
  · rintro ⟨⟩
    assumption
  · exact .form

theorem reads_bodiless_iff {s : Shorthand} {e : Expr} :
    Reads file ⟨[s], none⟩ e ↔ s.form.read file = .ok e := by
  rw [Shorthand.form, Form.read, Form.bind_eq_ok]
  constructor
  · rintro (_ | ⟨hx⟩ | ⟨_, ⟨⟩, _⟩)
    exact ⟨_, hx, rfl⟩
  · rintro ⟨x, hx, ⟨⟩⟩
    exact .bodiless hx

theorem reads_function_iff {s : Shorthand} {b : Block} {last : Form}
    (hlast : b.forms.getLast? = some last) {e : Expr} :
    Reads file ⟨s :: b.run, b.final⟩ e ↔ ∃ x body, s.param.read file = .ok x ∧ Reads file b body ∧
      e = .list [.special .lambda (written file s.site), x, body]
        (written file (s.form.span.join last.span)) := by
  constructor
  · intro h
    generalize hc : Block.mk (s :: b.run) b.final = c at h
    cases h with
    | form _ => cases hc
    | bodiless _ =>
        obtain ⟨run, final⟩ := b
        cases hc
        cases hlast
    | function hx hbody hlast' =>
        obtain ⟨run, final⟩ := b
        cases hc
        obtain rfl := Option.some.inj (hlast.symm.trans hlast')
        exact ⟨_, _, hx, hbody, rfl⟩
  · rintro ⟨x, body, hx, hbody, rfl⟩
    exact .function hx hbody hlast

theorem exists_cut_cons (f : Form) (fs : List Form) : ∃ b bs last, cut [] (f :: fs) = b :: bs ∧
    b.forms.getLast? = some last ∧ last.span = Form.blockEnd f fs := by
  induction fs generalizing f with
  | nil =>
      by_cases hf : f.isShorthand = false
      · exact ⟨⟨[], some f⟩, [], f, cut_form hf [] [], rfl, rfl⟩
      · obtain ⟨s, rfl⟩ := Shorthand.exists_of_isShorthand hf
        exact ⟨⟨[s], none⟩, [], s.form, rfl, rfl, rfl⟩
  | cons g gs ih =>
      rw [Form.blockEnd]
      by_cases hf : f.isShorthand = false
      · rw [if_neg (by simp [hf])]
        exact ⟨⟨[], some f⟩, cut [] (g :: gs), f, cut_form hf [] (g :: gs), rfl, rfl⟩
      · obtain ⟨b, bs, last, hcut, hlast, hspan⟩ := ih g
        obtain ⟨s, rfl⟩ := Shorthand.exists_of_isShorthand hf
        rw [if_pos (eq_true_of_ne_false hf)]
        refine ⟨⟨s :: b.run, b.final⟩, bs, last, ?_, ?_, hspan⟩
        · rw [cut_shorthand, List.nil_append, cut_cons s (.inr (List.cons_ne_nil g gs)), hcut]
          rfl
        · have hforms : (Block.mk (s :: b.run) b.final).forms = s.form :: b.forms := rfl
          rw [hforms, List.getLast?_cons, hlast]
          rfl

end Block

namespace Form

variable {file : Option FileRef}

theorem readItems_eq_ok {fs : List Form} {items : List Expr} :
    readItems file fs = .ok items ↔ List.Forall₂ (Block.Reads file) (Block.cut [] fs) items := by
  induction fs generalizing items with
  | nil =>
      simp only [readItems, Block.cut, Except.ok.injEq, List.forall₂_nil_left_iff]
      exact eq_comm
  | cons f fs ih =>
      by_cases hs : f.isShorthand = false ∨ fs = []
      · obtain ⟨b, hcut, hreads⟩ : ∃ b, Block.cut [] (f :: fs) = b :: Block.cut [] fs ∧
            ∀ e, Block.Reads file b e ↔ f.read file = .ok e := by
          by_cases hf : f.isShorthand = false
          · exact ⟨⟨[], some f⟩, Block.cut_form hf [] fs, fun _ => Block.reads_form_iff⟩
          · obtain rfl := hs.resolve_left hf
            obtain ⟨s, rfl⟩ := Shorthand.exists_of_isShorthand hf
            exact ⟨⟨[s], none⟩, rfl, fun _ => Block.reads_bodiless_iff⟩
        simp only [readItems_cons file hs, bind_eq_ok, hcut, List.forall₂_cons_left_iff, hreads, ← ih,
          Except.ok.injEq]
        constructor
        · rintro ⟨item, hitem, rest, hrest, rfl⟩
          exact ⟨item, rest, hitem, hrest, rfl⟩
        · rintro ⟨item, rest, hitem, hrest, rfl⟩
          exact ⟨item, hitem, rest, hrest, rfl⟩
      · obtain ⟨site, param, g, gs, rfl, rfl⟩ := exists_eq_of_shorthand_block hs
        obtain ⟨b, bs, last, hcut, hlast, hspan⟩ := Block.exists_cut_cons g gs
        have hpush : Block.cut [] (marked .lambda site param :: g :: gs) =
            ⟨⟨site, param⟩ :: b.run, b.final⟩ :: bs := by
          have hcons := Block.cut_cons ⟨site, param⟩ (.inr (List.cons_ne_nil g gs) : [] ≠ [] ∨ _)
          rwa [hcut] at hcons
        simp only [readItems, bind_eq_ok, ih, hcut, hpush, List.forall₂_cons_left_iff,
          Block.reads_function_iff hlast, Except.ok.injEq]
        constructor
        · rintro ⟨x, hx, _, ⟨body, rest, hbody, hrest, rfl⟩, rfl⟩
          exact ⟨_, rest, ⟨x, body, hx, hbody, rfl⟩, hrest, by rw [hspan]; rfl⟩
        · rintro ⟨_, rest, ⟨x, body, hx, hbody, rfl⟩, hrest, rfl⟩
          exact ⟨x, hx, _, ⟨body, rest, hbody, hrest, rfl⟩, by rw [hspan]; rfl⟩

def setAside : Delimiter → List Form → Option Shorthand × List Form
  | .paren, .marked .lambda site param :: fs => (some ⟨site, param⟩, fs)
  | _, fs => (none, fs)

def builder? : Delimiter → Option Primitive
  | .paren => none
  | .square => some .list
  | .brace => some .map

inductive Fronts (file : Option FileRef) (kind : Delimiter) (opener : Span) :
    Option Shorthand → List Expr → Prop
  | builder : Fronts file kind opener none
      ((builder? kind).toList.map fun op => .symbol op.name (written file opener))
  | function {s : Shorthand} {x : Expr} : s.param.read file = .ok x →
      Fronts file kind opener (some s) [.special .lambda (written file s.site), x]

theorem setAside_forms (kind : Delimiter) (children : List Form) :
    (setAside kind children).1.toList.map Shorthand.form ++ (setAside kind children).2 = children := by
  unfold setAside
  split <;> rfl

theorem read_group_eq_ok (kind : Delimiter) (opener closer : Span) (children : List Form) (e : Expr) :
    read file (.group kind opener closer children) = .ok e ↔
      ∃ front items, Fronts file kind opener (setAside kind children).1 front ∧
        readItems file (setAside kind children).2 = .ok items ∧
        (kind = .brace → items.length % 2 = 0) ∧
        e = .list (front ++ items) (written file (opener.join closer)) := by
  cases kind with
  | square =>
      rw [read, bind_eq_ok]
      constructor
      · rintro ⟨items, hitems, ⟨⟩⟩
        exact ⟨_, items, .builder, hitems, by simp, rfl⟩
      · rintro ⟨_, items, ⟨⟩, hitems, _, rfl⟩
        exact ⟨items, hitems, rfl⟩
  | brace =>
      rw [read, bind_eq_ok]
      constructor
      · rintro ⟨items, hitems, h⟩
        split at h
        · next heven =>
            cases h
            exact ⟨_, items, .builder, hitems, fun _ => heven, rfl⟩
        · cases h
      · rintro ⟨_, items, ⟨⟩, hitems, heven, rfl⟩
        exact ⟨items, hitems, if_pos (heven rfl)⟩
  | paren =>
      by_cases hs : ∀ f ∈ children.head?, f.isShorthand = false
      · have haside : setAside .paren children = (none, children) := by
          rw [setAside]
          rintro site param fs ⟨⟩ rfl
          simp [isShorthand] at hs
        rw [read_paren file _ _ hs, haside, bind_eq_ok]
        constructor
        · rintro ⟨items, hitems, ⟨⟩⟩
          exact ⟨_, items, .builder, hitems, by simp, rfl⟩
        · rintro ⟨_, items, ⟨⟩, hitems, _, rfl⟩
          exact ⟨items, hitems, rfl⟩
      · obtain ⟨site, param, rest, rfl⟩ := exists_eq_of_shorthand_head hs
        simp only [read, bind_eq_ok, setAside]
        constructor
        · rintro ⟨x, hx, items, hitems, ⟨⟩⟩
          exact ⟨_, items, .function hx, hitems, by simp, rfl⟩
        · rintro ⟨_, items, hfront, hitems, _, rfl⟩
          cases hfront with
          | function hx => exact ⟨_, hx, items, hitems, rfl⟩

theorem join_last {s : Shorthand} {fs : List Form} {last : Form}
    (h : Token.InOrder (allTokens (s.form :: fs))) (hlast : (s.form :: fs).getLast? = some last) :
    s.form.span.join last.span = ⟨s.site.start, last.span.stop⟩ := by
  have hstart : s.form.span.start = s.site.start :=
    start_marked (h.sublist (List.sublist_append_left _ _))
  cases fs with
  | nil =>
      obtain rfl : s.form = last := Option.some.inj hlast
      rw [Span.join_self, ← hstart]
  | cons g gs =>
      rw [List.getLast?_cons_cons] at hlast
      have hsub := tokens_sublist_of_mem (List.mem_of_getLast? hlast)
      rw [join_of_inOrder (h.sublist (hsub.append_left s.form.tokens)), hstart]

end Form

namespace Block

theorem join_of_cuts {fs : List Form} {bs : List Block} (h : Cuts fs bs)
    (hfs : Token.InOrder (Form.allTokens fs)) {b : Block} (hb : b ∈ bs) {run tail : List Shorthand}
    {s : Shorthand} (hrun : b.run = run ++ s :: tail) {last : Form}
    (hlast : b.forms.getLast? = some last) :
    s.form.span.join last.span = ⟨s.site.start, last.span.stop⟩ := by
  have hforms : b.forms = run.map Shorthand.form ++
      s.form :: (tail.map Shorthand.form ++ b.final.toList) := by
    simp [forms, hrun]
  have hsub : (s.form :: (tail.map Shorthand.form ++ b.final.toList)).Sublist fs := by
    rw [← h.forms_eq]
    refine .trans ?_ (List.sublist_flatten_of_mem (List.mem_map_of_mem hb))
    rw [hforms]
    exact List.sublist_append_right _ _
  rw [hforms, List.getLast?_append_cons] at hlast
  exact Form.join_last (hfs.sublist (Form.allTokens_sublist hsub)) hlast

end Block

namespace Form

/-- A group is read as the list of what is set aside or put ahead and of what each block is read as, if
all this can be read and a map has a value for each key. Every child is set aside or in one of the blocks,
which are cut from left to right. In a text, a function made of a block reaches from its mark to the end
of the block. -/
theorem groups_are_read_by_blocks (file : Option FileRef) (kind : Delimiter) (opener closer : Span)
    (children : List Form) :
    let aside := (setAside kind children).1
    let rest := (setAside kind children).2
    (∀ e, read file (.group kind opener closer children) = .ok e ↔
      ∃ front items, Fronts file kind opener aside front ∧
        List.Forall₂ (Block.Reads file) (Block.cut [] rest) items ∧
        (kind = .brace → items.length % 2 = 0) ∧
        e = .list (front ++ items) (written file (opener.join closer))) ∧
      aside.toList.map Shorthand.form ++ rest = children ∧
      Block.Cuts rest (Block.cut [] rest) ∧
      ∀ text, ∀ f ∈ parseForms text, (group kind opener closer children).PartOf f →
        ∀ b ∈ Block.cut [] rest, ∀ run s tail last, b.run = run ++ s :: tail →
          b.forms.getLast? = some last →
          s.form.span.join last.span = ⟨s.site.start, last.span.stop⟩ := by
  intro aside rest
  have haside : aside.toList.map Shorthand.form ++ rest = children := setAside_forms kind children
  have hcuts : Block.Cuts rest (Block.cut [] rest) := Block.cuts_cut [] rest
  refine ⟨fun e => ?_, haside, hcuts, ?_⟩
  · rw [read_group_eq_ok]
    simp only [readItems_eq_ok]
    rfl
  · intro text f hf hpart b hb run s tail last hrun hlast
    have hgroup := (inOrder_of_mem_parse hf).sublist hpart.sublist
    have hchildren : Token.InOrder (allTokens children) :=
      hgroup.sublist (.cons _ (List.sublist_append_left _ _))
    have hsub : rest.Sublist children := by
      rw [← haside]
      exact List.sublist_append_right _ _
    exact Block.join_of_cuts hcuts (hchildren.sublist (allTokens_sublist hsub)) hb hrun hlast

end Form

end SmallLisp
