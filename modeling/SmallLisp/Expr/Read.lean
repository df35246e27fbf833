import SmallLisp.Expr.Basic
import SmallLisp.Form.Basic

/-!
Reading forms as expressions. All brackets and sigils become lists headed by a special form or a
symbol, and every expression remembers the text it was read from.
-/
namespace SmallLisp

inductive ReadError where
  | unbalancedMap (literal : Form)

namespace ReadError

def span : ReadError → Span
  | .unbalancedMap literal => literal.span

def message : ReadError → String
  | .unbalancedMap _ => "map literal requires an even number of items"

def text (e : ReadError) : String :=
  s!"{e.span.start.text}: {e.message}"

def diagnose (f : File) (e : ReadError) : List Diagnostic :=
  [⟨f, e.span, e.message⟩]

end ReadError

def Mark.special : Mark → Special
  | .lambda => .lambda
  | .quasiquote => .quasiquote
  | .quote => .quote
  | .unquote => .unquote

namespace Form

open Provenance (written)

def blockEnd : Form → List Form → Span
  | f, [] => f.span
  | f, g :: gs => if f.isShorthand then blockEnd g gs else f.span

mutual

def read (file : Option FileRef) : Form → Except ReadError Expr
  | .int value site => .ok (.int value (written file site))
  | .symbol text site => .ok (.symbol text (written file site))
  | .group .paren opener closer (.marked .lambda site param :: children) => do
      let x ← read file param
      let items ← readItems file children
      .ok (.list (.special .lambda (written file site) :: x :: items)
        (written file (opener.join closer)))
  | .group .paren opener closer children => do
      let items ← readItems file children
      .ok (.list items (written file (opener.join closer)))
  | .group .square opener closer children => do
      let items ← readItems file children
      .ok (.list (.symbol Primitive.list.name (written file opener) :: items)
        (written file (opener.join closer)))
  | .group .brace opener closer children => do
      let items ← readItems file children
      if items.length % 2 = 0 then
        .ok (.list (.symbol Primitive.map.name (written file opener) :: items)
          (written file (opener.join closer)))
      else .error (.unbalancedMap (.group .brace opener closer children))
  | .marked mark site operand => do
      let value ← read file operand
      .ok (.list [.special mark.special (written file site), value]
        (written file (site.join operand.span)))
  | .ascription site type value => do
      let v ← read file value
      let t ← read file type
      .ok (.list [.special .the (written file site), t, v] (written file (site.join value.span)))

/-- The expressions of neighbouring forms. Shorthand takes what follows it as its body, so that a
block of forms gives one expression. -/
def readItems (file : Option FileRef) : List Form → Except ReadError (List Expr)
  | [] => .ok []
  | .marked .lambda site param :: g :: gs => do
      let x ← read file param
      let items ← readItems file (g :: gs)
      let span := (site.join param.span).join (blockEnd g gs)
      .ok (items.modifyHead fun body =>
        .list [.special .lambda (written file site), x, body] (written file span))
  | f :: fs => do
      let item ← read file f
      let items ← readItems file fs
      .ok (item :: items)

end

def readAll (file : Option FileRef) (fs : List Form) : List Expr :=
  fs.filterMap fun f => (f.read file).toOption

def readErrors (file : Option FileRef) (fs : List Form) : List ReadError :=
  fs.filterMap fun f =>
    match f.read file with
    | .ok _ => none
    | .error e => some e

end Form

end SmallLisp
