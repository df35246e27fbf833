import SmallLisp.Form.Partial
import SmallLisp.Source.File
import SmallLisp.Stack
import SmallLisp.Token.Error

namespace SmallLisp

inductive ParseError where
  | token (cause : TokenError) (opened : Stack Partial)
  /-- A closing bracket that does not close the innermost construct. All constructs are given up. -/
  | mismatch (kind : Delimiter) (closer : Span) (inner : Partial) (outer : Stack Partial)
  | unmatched (kind : Delimiter) (closer : Span)
  | unfinished (inner : Partial) (outer : Stack Partial)

inductive ParseError.Kind where
  | token | mismatch | incomplete
deriving DecidableEq, Repr

namespace ParseError

def kind : ParseError → Kind
  | .token _ _ => .token
  | .mismatch _ _ _ _ => .mismatch
  | .unmatched _ _ => .incomplete
  | .unfinished _ _ => .incomplete

def Kind.text : Kind → String
  | .token => "token failure"
  | .mismatch => "does not complete"
  | .incomplete => "incomplete"

def Kind.ofCode : Nat → Kind
  | 0 => .token
  | 1 => .mismatch
  | _ => .incomplete

def partials : ParseError → List Partial
  | .token _ opened => opened.bottomUp
  | .mismatch _ _ inner outer => (outer.push inner).bottomUp
  | .unmatched _ _ => []
  | .unfinished inner outer => (outer.push inner).bottomUp

def innermost? (e : ParseError) : Option Partial := e.partials.getLast?

def rejected? : ParseError → Option (Delimiter × Span)
  | .mismatch kind closer _ _ => some (kind, closer)
  | .unmatched kind closer => some (kind, closer)
  | _ => none

def isIncomplete : ParseError → Bool
  | .unfinished _ _ => true
  | _ => false

def complaint? : ParseError → Option (Span × String)
  | .token cause _ => some (cause.span, cause.message)
  | .mismatch kind closer inner _ =>
      some (closer, s!"'{kind.closing}' does not close {inner.opening}")
  | .unmatched kind closer => some (closer, s!"unmatched '{kind.closing}'")
  | .unfinished _ _ => none

def text : ParseError → String
  | .token cause _ => cause.text
  | .mismatch kind closer inner _ =>
      s!"{closer.start.text}: '{kind.closing}' does not close {inner.opening} at " ++
        inner.span.start.text
  | .unmatched kind closer => s!"{closer.start.text}: unmatched '{kind.closing}'"
  | .unfinished inner _ => s!"{inner.span.start.text}: {inner.describe}"

/-- The error as messages about a file: what went wrong, then the open constructs from the
innermost out. -/
def diagnose (f : File) (e : ParseError) : List Diagnostic :=
  (e.complaint?.toList ++ e.partials.reverse.map fun p => (p.span, p.describe)).map
    fun (span, message) => ⟨f, span, message⟩

end ParseError

end SmallLisp
