import SmallLisp.Eval.Machine
import SmallLisp.Expr.Entries

/-!
Evaluation. Every function here takes the evaluator for subexpressions as an argument; `eval` ties
the knot by recursion on fuel, which bounds how deeply evaluations and expansions follow each other.
-/
namespace SmallLisp

abbrev Evaluator := Expr → EvalM Expr

structure Call where
  param : String
  body : Expr
  env : Option Bindings
  arg : Expr

namespace Call

def extend (c : Call) (env : Env) : Env :=
  match c.env with
  | some bindings => (env.install bindings).assign c.param c.arg
  | none => env.assign c.param c.arg

def run (ev : Evaluator) (c : Call) : EvalM Expr := do
  modify fun m => { m with stats := { m.stats with calls := m.stats.calls + 1 } }
  EvalM.inCheckpoint do
    modify fun m => { m with env := c.extend m.env }
    ev c.body

/-- The macro call a list stands for: its head is a macro, or a symbol bound to one. The macro takes
its operands as one list. -/
def ofMacro? (env : Env) : Expr → Option Call
  | .list (.expander x _ body captured _ :: operands) prov =>
      some ⟨x, body, captured, .list operands prov⟩
  | .list (.symbol name _ :: operands) prov =>
      match env.lookup? name with
      | some (.expander x _ body captured _) => some ⟨x, body, captured, .list operands prov⟩
      | _ => none
  | _ => none

end Call

namespace Eval

def callMacro (ev : Evaluator) (c : Call) : EvalM Expr := do
  modify fun m => { m with stats := { m.stats with expansions := m.stats.expansions + 1 } }
  c.run ev

def expandOnceWith (ev : Evaluator) (e : Expr) : EvalM Expr := do
  match Call.ofMacro? (← get).env e with
  | none => pure e
  | some c => callMacro ev c

/-- Expands until there is no macro call, or a call whose macro gives the call itself back. -/
def expandWith (ev : Evaluator) : Nat → Expr → EvalM Expr
  | 0, _ => throw .outOfFuel
  | fuel + 1, e => do
      match Call.ofMacro? (← get).env e with
      | none => pure e
      | some c =>
          let e' ← callMacro ev c
          if e.equal e' then pure e' else expandWith ev fuel e'

def apply (ev : Evaluator) (site callee arg : Expr) : EvalM Expr :=
  match callee with
  | .function x _ body env _ => Call.run ev ⟨x, body, env, arg⟩
  | _ => EvalM.fail (.notCallable (some callee)) site

def applyAll (ev : Evaluator) (site : Expr) : Expr → List Expr → EvalM Expr
  | callee, [] => pure callee
  | callee, operand :: operands => do
      let arg ← ev operand
      let result ← apply ev site callee arg
      applyAll ev site result operands

def evalAll (ev : Evaluator) : List Expr → EvalM (List Expr)
  | [] => pure []
  | operand :: operands => do
      let value ← ev operand
      let values ← evalAll ev operands
      pure (value :: values)

def numbers : List Expr → EvalM (List Int64)
  | [] => pure []
  | .int n _ :: values => do
      let ns ← numbers values
      pure (n :: ns)
  | value :: _ => EvalM.fail (.wrongType "int") value

def wrongArity {α : Type} (site : Expr) (operands : List Expr) (n : Nat) : EvalM α :=
  if operands.length < n then EvalM.fail (.missingArguments (n - operands.length)) site
  else EvalM.fail (.extraArguments (operands.drop n)) site

def special (opts : Options) (ev : Evaluator) (site : Expr) : Special → List Expr → EvalM Expr
  | .quote, [operand] => pure operand
  | .quote, operands => wrongArity site operands 1
  | .quasiquote, [operand] => pure operand
  | .quasiquote, operands => wrongArity site operands 1
  | .the, [type, value] => do
      let _ ← ev type
      ev value
  | .the, operands => wrongArity site operands 2
  | .lambda, [.symbol x xprov, body] => do
      let env := (← get).env.current
      pure (.function x xprov body (if opts.captures then some env else none) site.prov)
  | .lambda, [param, _] => EvalM.fail .badParameter param
  | .lambda, operands => wrongArity site operands 2
  | .unquote, _ => EvalM.fail (.unimplemented Special.unquote.name) site

def difference : List Int64 → Int64
  | [] => 0
  | [n] => -n
  | n :: ns => ns.foldl (· - ·) n

def primitive (ev : Evaluator) (site : Expr) : Primitive → List Expr → EvalM Expr
  | .list, operands => do
      let values ← evalAll ev operands
      pure (.list values site.prov)
  | .map, operands => do
      if operands.length % 2 = 0 then
        let values ← evalAll ev operands
        pure (.map (Entries.setAll [] values) site.prov)
      else EvalM.fail (.missingArguments 1) site
  | .define, [.symbol x _, operand] => do
      let value ← ev operand
      EvalM.assign x value
      pure value
  | .define, [name, _] => EvalM.fail .badParameter name
  | .define, operands => wrongArity site operands 2
  | .mkMacro, [operand] => do
      match ← ev operand with
      | .function x xprov body env _ => pure (.expander x xprov body env site.prov)
      | value => EvalM.fail (.wrongType "function") value
  | .mkMacro, operands => wrongArity site operands 1
  | .add, operands => do
      let ns ← numbers (← evalAll ev operands)
      pure (.int (ns.foldl (· + ·) 0) site.prov)
  | .mul, operands => do
      let ns ← numbers (← evalAll ev operands)
      pure (.int (ns.foldl (· * ·) 1) site.prov)
  | .sub, [] => EvalM.fail (.missingArguments 1) site
  | .sub, operands => do
      let ns ← numbers (← evalAll ev operands)
      pure (.int (difference ns) site.prov)

def reference (name : String) (prov : Provenance) : EvalM Expr := do
  match (← get).env.lookup? name with
  | some value => pure (value.withProv (value.prov.via prov))
  | none => EvalM.fail .unknownBinding (.symbol name prov)

def applyHead (opts : Options) (ev : Evaluator) (site head : Expr) (operands : List Expr) :
    EvalM Expr := do
  match ← ev head with
  | .special kind _ => special opts ev site kind operands
  | .primitive op _ => primitive ev site op operands
  | callee => applyAll ev site callee operands

def evalExpanded (opts : Options) (ev : Evaluator) : Expr → EvalM Expr
  | .symbol name prov => reference name prov
  | .expander x xprov body env prov =>
      EvalM.fail .unexpandedMacro (.expander x xprov body env prov)
  | .list (head :: operands) prov => applyHead opts ev (.list (head :: operands) prov) head operands
  | e => pure e

/-- The value of an expression: it is expanded, and then symbols stand for their values, lists are
applications and all else stands for itself. -/
def eval (opts : Options) : Nat → Expr → EvalM Expr
  | 0, _ => throw .outOfFuel
  | fuel + 1, e => EvalM.nested opts e do
      let e' ← expandWith (eval opts fuel) (fuel + 1) e
      evalExpanded opts (eval opts fuel) e'

def expand (opts : Options) (fuel : Nat) (e : Expr) : EvalM Expr :=
  expandWith (eval opts fuel) fuel e

def expandOnce (opts : Options) (fuel : Nat) (e : Expr) : EvalM Expr :=
  expandOnceWith (eval opts fuel) e

end Eval

end SmallLisp
