import SmallLisp.Eval.Env
import SmallLisp.Eval.Error

/-!
The state of an evaluator, and computations on it. A computation that fails keeps its effects.
-/
namespace SmallLisp

structure Options where
  captures : Bool
  /-- How deeply evaluations may be nested; zero sets no bound. -/
  maxDepth : Nat
deriving DecidableEq, Repr

def Options.default : Options := ⟨false, 0⟩

structure Stats where
  expansions : Nat
  calls : Nat
  depth : Nat
deriving DecidableEq, Repr

structure Machine where
  env : Env
  stats : Stats
  depth : Nat

def Machine.ofEnv (env : Env) : Machine := ⟨env, ⟨0, 0, 0⟩, 0⟩

inductive Halt where
  | error (e : EvalError)
  | underflow
  /-- The allotted fuel was used up: nothing is known of the outcome. -/
  | outOfFuel

namespace Halt

def text : Halt → String
  | .error e => e.text
  | .underflow => "stack underflow"
  | .outOfFuel => "out of fuel"

def diagnose (f : File) : Halt → List Diagnostic
  | .error e => e.diagnose f
  | _ => []

end Halt

abbrev EvalM := EStateM Halt Machine

namespace EvalM

def fail {α : Type} (cause : EvalError.Cause) (subject : Expr) : EvalM α :=
  throw (.error ⟨cause, some subject⟩)

def assign (name : String) (value : Expr) : EvalM Unit :=
  modify fun m => { m with env := m.env.assign name value }

/-- A computation one level deeper, unless the bound is reached. Whatever its outcome, the level is
left again. -/
def nested (opts : Options) (e : Expr) (action : EvalM Expr) : EvalM Expr := fun m =>
  if opts.maxDepth ≠ 0 ∧ opts.maxDepth ≤ m.depth then
    .error (.error ⟨.depthExceeded, some e⟩) m
  else
    let depth := m.depth + 1
    let stats := { m.stats with depth := max m.stats.depth depth }
    match action { m with stats := stats, depth := depth } with
    | .ok value m' => .ok value { m' with depth := m'.depth - 1 }
    | .error halt m' => .error halt { m' with depth := m'.depth - 1 }

/-- A computation between entering and leaving a checkpoint. Whatever its outcome, the checkpoint is
left again. -/
def inCheckpoint (action : EvalM Expr) : EvalM Expr := fun m =>
  match action { m with env := m.env.enter } with
  | .ok value m' =>
      match m'.env.leave? with
      | some env => .ok value { m' with env := env }
      | none => .error .underflow m'
  | .error halt m' =>
      match m'.env.leave? with
      | some env => .error halt { m' with env := env }
      | none => .error halt m'

end EvalM

end SmallLisp
