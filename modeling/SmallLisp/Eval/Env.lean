import SmallLisp.Expr.Bindings
import SmallLisp.Stack

namespace SmallLisp

structure Env where
  current : Bindings
  saved : Stack Bindings

namespace Env

def empty : Env := ⟨[], .empty⟩

def enter (env : Env) : Env := { env with saved := env.saved.push env.current }

def leave? (env : Env) : Option Env :=
  env.saved.pop?.map fun (bindings, saved) => ⟨bindings, saved⟩

def depth (env : Env) : Nat := env.saved.length

def assign (env : Env) (name : String) (value : Expr) : Env :=
  { env with current := env.current.set name value }

def install (env : Env) (bindings : Bindings) : Env := { env with current := bindings }

def lookup? (env : Env) (name : String) : Option Expr := env.current.get? name

def names (env : Env) : List String := env.current.names

@[simp] theorem leave?_enter (env : Env) : env.enter.leave? = some env := rfl

@[simp] theorem saved_assign (env : Env) (name : String) (value : Expr) :
    (env.assign name value).saved = env.saved := rfl

@[simp] theorem saved_install (env : Env) (bindings : Bindings) :
    (env.install bindings).saved = env.saved := rfl

theorem lookup?_assign (env : Env) (name other : String) (value : Expr) :
    (env.assign name value).lookup? other =
      if other = name then some value else env.lookup? other :=
  Bindings.get?_set env.current name other value

def standard : Env :=
  let specials := Special.all.map fun k => (k.name, Expr.special k [])
  let primitives := Primitive.all.map fun o => (o.name, Expr.primitive o [])
  (specials ++ primitives).foldl (fun env e => env.assign e.1 e.2) empty

end Env

end SmallLisp
