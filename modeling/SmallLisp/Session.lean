import SmallLisp.Interpreter
import SmallLisp.Layout.Printer

namespace SmallLisp

structure Session where
  interpreter : Interpreter
  printer : Printer

structure Reply where
  goesOn : Bool
  failures : List Failure
  out : String
  reports : List String

namespace Session

def inputName : String := "<repl>"

def stackListing (env : Env) : String :=
  s!"depth {env.depth}\n" ++ String.join (env.names.filterMap fun name =>
    (env.lookup? name).map fun value => s!"{name} = {value.text}\n")

def run (s : Session) (fuel : Nat) (input : List Char) : Reply × Session :=
  let (file, it) := s.interpreter.openFile inputName input
  let (outcomes, it) := it.runFile fuel file
  let failures := Interpreter.failures outcomes
  (⟨true, failures, String.join ((Interpreter.results outcomes).map s.printer.format),
    failures.map (·.report file)⟩, { s with interpreter := it })

/-- Answers an input. Blanks around a command do not count. -/
def handle (s : Session) (fuel : Nat) (input : List Char) : Reply × Session :=
  match String.ofList (Text.trim input) with
  | "" => (⟨true, [], "", []⟩, s)
  | ":quit" => (⟨false, [], "", []⟩, s)
  | ":reset" =>
      (⟨true, [], "bindings reset\n", []⟩, { s with interpreter := s.interpreter.reset })
  | ":stack" => (⟨true, [], stackListing s.interpreter.machine.env, []⟩, s)
  | _ => s.run fuel input

end Session

end SmallLisp
