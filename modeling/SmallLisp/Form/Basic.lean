import SmallLisp.Text.Spaced
import SmallLisp.Token.Basic

namespace SmallLisp

inductive Form where
  | int (value : Int64) (site : Span)
  | symbol (text : String) (site : Span)
  | group (kind : Delimiter) (opener closer : Span) (children : List Form)
  | marked (mark : Mark) (site : Span) (operand : Form)
  | ascription (site : Span) (type value : Form)

instance : Inhabited Form := ⟨.symbol "" ⟨.start, .start⟩⟩

namespace Form

def span : Form → Span
  | .int _ site => site
  | .symbol _ site => site
  | .group _ opener closer _ => opener.join closer
  | .marked _ site operand => site.join operand.span
  | .ascription site _ value => site.join value.span

mutual

def text : Form → String
  | .int value _ => toString value.toInt
  | .symbol text _ => text
  | .group kind _ _ children =>
      kind.opening.toString ++ Text.spaced (texts children) ++ kind.closing.toString
  | .marked mark _ operand => mark.char.toString ++ operand.text
  | .ascription _ type value => Sigil.ascription.char.toString ++ type.text ++ " " ++ value.text

def texts : List Form → List String
  | [] => []
  | f :: fs => f.text :: texts fs

end

theorem texts_eq_map (fs : List Form) : texts fs = fs.map text := by
  induction fs with
  | nil => rfl
  | cons f fs ih => simp [texts, ih]

def isShorthand : Form → Bool
  | .marked .lambda _ _ => true
  | _ => false

end Form

end SmallLisp
