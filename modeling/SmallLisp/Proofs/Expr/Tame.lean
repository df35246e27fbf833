import SmallLisp.Proofs.Expr.Members
import SmallLisp.Proofs.Expr.Reading

namespace SmallLisp

variable {ops : Primitive → Prop}

inductive Expr.Tame (ops : Primitive → Prop) : Expr → Prop
  | nil : Tame ops .nil
  | int {n : Int64} {p : Provenance} : Tame ops (.int n p)
  | symbol {name : String} {p : Provenance} : Tame ops (.symbol name p)
  | list {items : List Expr} {p : Provenance} : (∀ x ∈ items, Tame ops x) → Tame ops (.list items p)
  | map {entries : List (Expr × Expr)} {p : Provenance} : (∀ e ∈ entries, Tame ops e.1) →
      (∀ e ∈ entries, Tame ops e.2) → Tame ops (.map entries p)
  | function {x : String} {xp p : Provenance} {body : Expr} {env : Option Bindings} :
      Tame ops body → (∀ b ∈ env, ∀ e ∈ b, Tame ops e.2) → Tame ops (.function x xp body env p)
  | special {kind : Special} {p : Provenance} : Tame ops (.special kind p)
  | primitive {op : Primitive} {p : Provenance} : ops op → Tame ops (.primitive op p)

namespace Expr

theorem Tame.withProv {e : Expr} (h : e.Tame ops) (p : Provenance) : (e.withProv p).Tame ops := by
  cases h with
  | nil => exact .nil
  | int => exact .int
  | symbol => exact .symbol
  | list hitems => exact .list hitems
  | map hkeys hvalues => exact .map hkeys hvalues
  | function hbody henv => exact .function hbody henv
  | special => exact .special
  | primitive hop => exact .primitive hop

theorem Tame.items {items : List Expr} {p : Provenance} (h : (Expr.list items p).Tame ops) :
    ∀ x ∈ items, x.Tame ops := by
  cases h with
  | list hitems => exact hitems

theorem tame_setAll {values : List Expr} (h : ∀ x ∈ values, x.Tame ops) (p : Provenance) :
    (Expr.map (Entries.setAll [] values) p).Tame ops := by
  have hentries := Entries.forall_setAll h
  exact .map (fun e he => (hentries e he).1) fun e he => (hentries e he).2

end Expr

def Bindings.Tame (ops : Primitive → Prop) (b : Bindings) : Prop := ∀ e ∈ b, e.2.Tame ops

namespace Bindings

theorem Tame.set {b : Bindings} (hb : b.Tame ops) (name : String) {value : Expr}
    (hvalue : value.Tame ops) : (b.set name value).Tame ops :=
  forall_set hb name hvalue

theorem Tame.captured {b : Bindings} (hb : b.Tame ops) (captures : Bool) :
    ∀ c ∈ if captures then some b else none, c.Tame ops := by
  cases captures with
  | false => simp
  | true => simpa using hb

theorem Tame.get? {b : Bindings} (hb : b.Tame ops) {name : String} {value : Expr}
    (h : b.get? name = some value) : value.Tame ops :=
  hb _ (mem_of_get? h)

end Bindings

theorem Expr.structural_tame (file : Option FileRef) :
    Expr.Structural file (fun _ => True) (Expr.Tame ops) where
  join _ _ := trivial
  list _ hitems := .list hitems
  special _ _ _ := .special
  builder _ _ _ := .symbol

theorem Form.tame_of_read {f : Form} {file : Option FileRef} {e : Expr} (h : f.read file = .ok e) :
    e.Tame ops :=
  read_structural (Expr.structural_tame file) f
    (fun _ _ => ⟨trivial, fun _ => .int, fun _ => .symbol⟩) e h

end SmallLisp
