import SmallLisp.Form.Basic
import SmallLisp.Stack

namespace SmallLisp

inductive Partial where
  | group (kind : Delimiter) (opener : Span) (children : Stack Form)
  /-- A colon that waits for its type, or for its value once the type is known. -/
  | ascription (site : Span) (type : Option Form)
  | marked (mark : Mark) (site : Span)

namespace Partial

def span : Partial → Span
  | .group _ opener children =>
      match children.top? with
      | some last => opener.join last.span
      | none => opener
  | .ascription site (some type) => site.join type.span
  | .ascription site none => site
  | .marked _ site => site

def describe : Partial → String
  | .group kind _ _ => s!"unclosed '{kind.opening}'"
  | .ascription _ none => s!"'{Sigil.ascription.char}' missing type and value"
  | .ascription _ (some _) => s!"'{Sigil.ascription.char}' missing value"
  | .marked mark _ => s!"'{mark.char}' missing operand"

def opening : Partial → String
  | .group kind _ _ => s!"'{kind.opening}'"
  | .ascription _ _ => s!"'{Sigil.ascription.char}'"
  | .marked mark _ => s!"'{mark.char}'"

end Partial

end SmallLisp
