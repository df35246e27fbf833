import SmallLisp.Eval.Evaluator
import SmallLisp.Expr.Read
import SmallLisp.Form.Parser

/-!
Running source text from end to end: each form of a text is parsed, read and evaluated before the
next one, and bindings last from one text to the next.
-/
namespace SmallLisp

inductive Failure where
  | parse (e : ParseError)
  | source (message : String)
  | read (e : ReadError)
  | eval (halt : Halt)

namespace Failure

def text : Failure → String
  | .parse e => e.text
  | .source message => message
  | .read e => e.text
  | .eval halt => halt.text

def diagnose (f : File) : Failure → List Diagnostic
  | .parse e => e.diagnose f
  | .source _ => []
  | .read e => e.diagnose f
  | .eval halt => halt.diagnose f

def report (f : File) (failure : Failure) : String :=
  match failure.diagnose f with
  | [] => failure.text ++ "\n"
  | diagnostics => String.join (diagnostics.map (·.report))

end Failure

structure Interpreter where
  options : Options
  named : Bool
  machine : Machine
  opened : Nat

namespace Interpreter

def start (named : Bool) : Machine :=
  .ofEnv (if named then .standard else .empty)

def new (options : Options) (named : Bool) : Interpreter :=
  ⟨options, named, start named, 0⟩

def reset (it : Interpreter) : Interpreter :=
  { it with machine := start it.named }

def openFile (it : Interpreter) (name : String) (contents : List Char) : File × Interpreter :=
  (⟨⟨it.opened, name⟩, contents⟩, { it with opened := it.opened + 1 })

def runEvent (options : Options) (fuel : Nat) (file : FileRef) (m : Machine) :
    Parser.Event → Except Failure Expr × Machine
  | .error e => (.error (.parse e), m)
  | .fault message => (.error (.source message), m)
  | .form f =>
      match f.read (some file) with
      | .error e => (.error (.read e), m)
      | .ok e =>
          match Eval.eval options fuel e m with
          | .ok value m' => (.ok value, m')
          | .error halt m' => (.error (.eval halt), m')

def runEvents (options : Options) (fuel : Nat) (file : FileRef) :
    Machine → List Parser.Event → List (Except Failure Expr) × Machine
  | m, [] => ([], m)
  | m, event :: events =>
      let (outcome, m') := runEvent options fuel file m event
      let (outcomes, m'') := runEvents options fuel file m' events
      (outcome :: outcomes, m'')

/-- The outcomes of what a parser hands out within a number of steps. Each form is read and evaluated
before the next one is asked for. -/
def runWithin (options : Options) (fuel : Nat) (file : FileRef) :
    Nat → Parser → Machine → List (Except Failure Expr) × Machine
  | 0, _, m => ([], m)
  | steps + 1, p, m =>
      match p.next with
      | (none, _) => ([], m)
      | (some event, p') =>
          let (outcome, m') := runEvent options fuel file m event
          let (outcomes, m'') := runWithin options fuel file steps p' m'
          (outcome :: outcomes, m'')

/-- Runs a file: the outcome of each of its forms, and the interpreter afterwards. All that the parser
hands out takes a character, but for an error at the end of the file, so the steps never run out. -/
def runFile (it : Interpreter) (fuel : Nat) (file : File) :
    List (Except Failure Expr) × Interpreter :=
  let (outcomes, m) := runWithin it.options fuel file.toFileRef (file.contents.length + 2)
    (.ofText file.contents) it.machine
  (outcomes, { it with machine := m })

def results (outcomes : List (Except Failure Expr)) : List Expr :=
  outcomes.filterMap (·.toOption)

def failures (outcomes : List (Except Failure Expr)) : List Failure :=
  outcomes.filterMap fun
    | .ok _ => none
    | .error failure => some failure

def inputName : String := "<input>"

def runText (it : Interpreter) (fuel : Nat) (text : List Char) :
    List (Except Failure Expr) × Interpreter :=
  let (file, it) := it.openFile inputName text
  it.runFile fuel file

/-- More fuel than any run on a machine can use. -/
def ample : Nat := 4611686018427387904

end Interpreter

end SmallLisp
