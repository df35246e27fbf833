import SmallLisp.Expr.Provenance

namespace SmallLisp

inductive Special where
  | lambda | quasiquote | quote | the | unquote
deriving DecidableEq, Repr

namespace Special

def all : List Special := [.lambda, .quasiquote, .quote, .the, .unquote]

def name : Special → String
  | .lambda => "lambda"
  | .quasiquote => "quasiquote"
  | .quote => "quote"
  | .the => "the"
  | .unquote => "unquote"

def code (s : Special) : Nat := all.idxOf s

def ofCode? (n : Nat) : Option Special := all[n]?

def ofName? (name : String) : Option Special := all.find? (·.name = name)

end Special

inductive Primitive where
  | list | map | define | mkMacro | add | mul | sub
deriving DecidableEq, Repr

namespace Primitive

def all : List Primitive := [.list, .map, .define, .mkMacro, .add, .mul, .sub]

def name : Primitive → String
  | .list => "list"
  | .map => "map"
  | .define => "def"
  | .mkMacro => "macro"
  | .add => "+"
  | .mul => "*"
  | .sub => "-"

def ofName? (name : String) : Option Primitive := all.find? (·.name = name)

end Primitive

inductive Expr where
  | nil
  | int (value : Int64) (prov : Provenance)
  | symbol (name : String) (prov : Provenance)
  | list (items : List Expr) (prov : Provenance)
  | map (entries : List (Expr × Expr)) (prov : Provenance)
  | function (param : String) (paramProv : Provenance) (body : Expr)
      (env : Option (List (String × Expr))) (prov : Provenance)
  | expander (param : String) (paramProv : Provenance) (body : Expr)
      (env : Option (List (String × Expr))) (prov : Provenance)
  | special (kind : Special) (prov : Provenance)
  | primitive (op : Primitive) (prov : Provenance)

instance : Inhabited Expr := ⟨.nil⟩

abbrev Bindings := List (String × Expr)

namespace Expr

def prov : Expr → Provenance
  | .nil => []
  | .int _ p => p
  | .symbol _ p => p
  | .list _ p => p
  | .map _ p => p
  | .function _ _ _ _ p => p
  | .expander _ _ _ _ p => p
  | .special _ p => p
  | .primitive _ p => p

def withProv (p : Provenance) : Expr → Expr
  | .nil => .nil
  | .int v _ => .int v p
  | .symbol n _ => .symbol n p
  | .list xs _ => .list xs p
  | .map es _ => .map es p
  | .function x xp b env _ => .function x xp b env p
  | .expander x xp b env _ => .expander x xp b env p
  | .special k _ => .special k p
  | .primitive o _ => .primitive o p

@[simp] theorem withProv_withProv (p q : Provenance) (e : Expr) :
    (e.withProv p).withProv q = e.withProv q := by
  cases e <;> rfl

@[simp] theorem withProv_prov (e : Expr) : e.withProv e.prov = e := by
  cases e <;> rfl

end Expr

end SmallLisp
