import SmallLisp.Eval.Env
import SmallLisp.Proofs.Expr.Members
import SmallLisp.Proofs.Expr.Reading
import SmallLisp.Proofs.Form.Places

/-!
Expressions that can be located. What is read from a text has a place of that text, and so have all
its parts. A bound expression may have no place of its own, as the built-in operations have none: the
reference through which it is reached gives it one.
-/
namespace SmallLisp

variable {known : Site → Prop}

inductive Expr.Traced (known : Site → Prop) : Expr → Prop
  | int {n : Int64} {p : Provenance} : (∀ s ∈ p, known s) → Traced known (.int n p)
  | symbol {name : String} {p : Provenance} : (∀ s ∈ p, known s) → Traced known (.symbol name p)
  | list {items : List Expr} {p : Provenance} : (∀ s ∈ p, known s) →
      (∀ x ∈ items, x.prov ≠ []) → (∀ x ∈ items, Traced known x) → Traced known (.list items p)
  | map {entries : List (Expr × Expr)} {p : Provenance} : (∀ s ∈ p, known s) →
      (∀ e ∈ entries, e.1.prov ≠ [] ∧ e.2.prov ≠ []) → (∀ e ∈ entries, Traced known e.1) →
      (∀ e ∈ entries, Traced known e.2) → Traced known (.map entries p)
  | function {x : String} {xp p : Provenance} {body : Expr} {env : Option Bindings} :
      (∀ s ∈ p, known s) → body.prov ≠ [] → Traced known body →
      (∀ b ∈ env, ∀ e ∈ b, Traced known e.2) → Traced known (.function x xp body env p)
  | expander {x : String} {xp p : Provenance} {body : Expr} {env : Option Bindings} :
      (∀ s ∈ p, known s) → body.prov ≠ [] → Traced known body →
      (∀ b ∈ env, ∀ e ∈ b, Traced known e.2) → Traced known (.expander x xp body env p)
  | special {kind : Special} {p : Provenance} : (∀ s ∈ p, known s) → Traced known (.special kind p)
  | primitive {op : Primitive} {p : Provenance} :
      (∀ s ∈ p, known s) → Traced known (.primitive op p)

namespace Expr

theorem Traced.sites {e : Expr} (h : e.Traced known) : ∀ s ∈ e.prov, known s := by
  cases h <;> assumption

theorem Traced.withProv {e : Expr} {p : Provenance} (h : e.Traced known) (hp : ∀ s ∈ p, known s) :
    (e.withProv p).Traced known := by
  cases h with
  | int _ => exact .int hp
  | symbol _ => exact .symbol hp
  | list _ hplaced htraced => exact .list hp hplaced htraced
  | map _ hplaced hkeys hvalues => exact .map hp hplaced hkeys hvalues
  | function _ hplaced hbody henv => exact .function hp hplaced hbody henv
  | expander _ hplaced hbody henv => exact .expander hp hplaced hbody henv
  | special _ => exact .special hp
  | primitive _ => exact .primitive hp

theorem Traced.prov_withProv {e : Expr} (h : e.Traced known) (p : Provenance) :
    (e.withProv p).prov = p := by
  cases h <;> rfl

structure Located (known : Site → Prop) (e : Expr) : Prop where
  placed : e.prov ≠ []
  traced : e.Traced known

theorem located_list {items : List Expr} {p : Provenance} (hne : p ≠ []) (hp : ∀ s ∈ p, known s)
    (h : ∀ x ∈ items, x.Located known) : (Expr.list items p).Located known :=
  ⟨hne, .list hp (fun x hx => (h x hx).placed) fun x hx => (h x hx).traced⟩

theorem Located.items {items : List Expr} {p : Provenance} (h : (Expr.list items p).Located known) :
    ∀ x ∈ items, x.Located known := by
  cases h.traced with
  | list _ hplaced htraced => exact fun x hx => ⟨hplaced x hx, htraced x hx⟩

end Expr

def Bindings.Traced (known : Site → Prop) (b : Bindings) : Prop := ∀ e ∈ b, e.2.Traced known

namespace Bindings

theorem Traced.set {b : Bindings} (hb : b.Traced known) (name : String) {value : Expr}
    (hvalue : value.Traced known) : (b.set name value).Traced known :=
  forall_set hb name hvalue

end Bindings

structure Env.Traced (known : Site → Prop) (env : Env) : Prop where
  current : env.current.Traced known
  saved : ∀ b ∈ env.saved, b.Traced known

namespace Env

theorem traced_empty : Env.empty.Traced known :=
  ⟨fun _ he => (List.not_mem_nil he).elim, fun _ hb => (List.not_mem_nil hb).elim⟩

theorem Traced.assign {env : Env} (h : env.Traced known) (name : String) {value : Expr}
    (hvalue : value.Traced known) : (env.assign name value).Traced known :=
  ⟨h.current.set name hvalue, h.saved⟩

theorem Traced.install {env : Env} (h : env.Traced known) {b : Bindings} (hb : b.Traced known) :
    (env.install b).Traced known :=
  ⟨hb, h.saved⟩

theorem traced_standard : Env.standard.Traced known := by
  have hall (entries : List (String × Expr)) (env : Env) (henv : env.Traced known)
      (hentries : ∀ e ∈ entries, e.2.Traced known) :
      (entries.foldl (fun env e => env.assign e.1 e.2) env).Traced known := by
    induction entries generalizing env with
    | nil => exact henv
    | cons e es ih =>
        obtain ⟨he, hes⟩ := List.forall_mem_cons.mp hentries
        exact ih _ (henv.assign e.1 he) hes
  refine hall _ _ traced_empty fun e he => ?_
  rcases List.mem_append.mp he with he | he
  · obtain ⟨kind, _, rfl⟩ := List.mem_map.mp he
    exact .special (by simp)
  · obtain ⟨op, _, rfl⟩ := List.mem_map.mp he
    exact .primitive (by simp)

theorem Traced.enter {env : Env} (h : env.Traced known) : env.enter.Traced known :=
  ⟨h.current, List.forall_mem_cons.mpr ⟨h.current, h.saved⟩⟩

theorem Traced.leave {env env' : Env} (h : env.Traced known) (hleave : env.leave? = some env') :
    env'.Traced known := by
  obtain ⟨current, saved⟩ := env
  cases saved with
  | nil => cases hleave
  | cons b saved =>
      cases hleave
      obtain ⟨hb, hsaved⟩ := List.forall_mem_cons.mp h.saved
      exact ⟨hb, hsaved⟩

end Env

theorem Expr.located_map {values : List Expr} {p : Provenance} (hne : p ≠ [])
    (hp : ∀ s ∈ p, known s) (h : ∀ x ∈ values, x.Located known) :
    (Expr.map (Entries.setAll [] values) p).Located known := by
  have hentries := Entries.forall_setAll h
  refine ⟨hne, .map hp ?_ ?_ ?_⟩
  · exact fun e he => ⟨(hentries e he).1.placed, (hentries e he).2.placed⟩
  · exact fun e he => (hentries e he).1.traced
  · exact fun e he => (hentries e he).2.traced

namespace Form

open Provenance (written)

variable {text : List Char} {file : Option FileRef}

def Knows (known : Site → Prop) (file : Option FileRef) (text : List Char) : Prop :=
  ∀ span : Span, span.LiesIn text → known ⟨some span, file⟩

theorem Knows.written (h : Knows known file text) {span : Span} (hspan : span.LiesIn text) :
    ∀ s ∈ written file span, known s :=
  List.forall_mem_singleton.mpr (h span hspan)

theorem Knows.structural (h : Knows known file text) :
    Expr.Structural file (Span.LiesIn text) (Expr.Located known) where
  join := Span.LiesIn.join
  list hspan hitems := Expr.located_list (List.cons_ne_nil _ _) (h.written hspan) hitems
  special _ _ hspan := ⟨List.cons_ne_nil _ _, .special (h.written hspan)⟩
  builder _ _ hspan := ⟨List.cons_ne_nil _ _, .symbol (h.written hspan)⟩

theorem located_read (h : Knows known file text) (f : Form) (hf : f.LiesIn text) :
    ∀ e, f.read file = .ok e → e.Located known := by
  refine read_structural h.structural f fun t ht => ⟨hf t ht, fun _ => ?_, fun _ => ?_⟩
  · exact ⟨List.cons_ne_nil _ _, .int (h.written (hf t ht))⟩
  · exact ⟨List.cons_ne_nil _ _, .symbol (h.written (hf t ht))⟩

end Form

end SmallLisp
