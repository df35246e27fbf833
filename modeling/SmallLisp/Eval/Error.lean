import SmallLisp.Expr.Text

namespace SmallLisp

inductive EvalError.Cause where
  | badParameter
  | missingArguments (count : Nat)
  | extraArguments (surplus : List Expr)
  | notCallable (callee : Option Expr)
  | unknownBinding
  | unexpandedMacro
  | unimplemented (what : String)
  | wrongType (expected : String)
  | depthExceeded

/-- A cause and the expression it is about: the call, where what is called is no function. -/
structure EvalError where
  cause : EvalError.Cause
  subject : Option Expr

namespace EvalError

def prov (e : EvalError) : Provenance :=
  match e.subject with
  | some subject => subject.prov
  | none => []

def shown : Option Expr → String
  | some e => e.text
  | none => "%!s(<nil>)"

def message (e : EvalError) : String :=
  let subject := shown e.subject
  match e.cause with
  | .badParameter => s!"bad parameter {subject}"
  | .missingArguments count => s!"missing {count} argument(s) in {subject}"
  | .extraArguments surplus =>
      s!"unexpected argument(s) {Text.spaced (surplus.map Expr.text)} in {subject}"
  | .notCallable callee => s!"{shown callee} is not callable in {subject}"
  | .unknownBinding => s!"unknown binding {subject}"
  | .unexpandedMacro => s!"unexpanded macro {subject}"
  | .unimplemented what => s!"{what} is not implemented"
  | .wrongType expected => s!"expected {expected}, found {subject}"
  | .depthExceeded => s!"evaluation depth exceeded at {subject}"

def text (e : EvalError) : String :=
  match e.prov.first? with
  | some span => s!"{span.start.text}: {e.message}"
  | none => e.message

def diagnose (f : File) (e : EvalError) : List Diagnostic :=
  (e.prov.firstIn? f.toFileRef).toList.map fun span => ⟨f, span, e.message⟩

end EvalError

end SmallLisp
