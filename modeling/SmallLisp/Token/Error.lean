import SmallLisp.Source.Position
import SmallLisp.Text.Quoted

namespace SmallLisp

inductive TokenError.Cause where
  | invalidChar (code : Int)
  /-- A token that is not finished. The scanner never reports it. -/
  | unfinished
  | overflow
deriving DecidableEq, Repr

structure TokenError where
  cause : TokenError.Cause
  span : Span
deriving DecidableEq, Repr

namespace TokenError

def message (e : TokenError) : String :=
  match e.cause with
  | .invalidChar code => "invalid character " ++ Text.quotedChar code
  | .unfinished => "incomplete token"
  | .overflow => "integer literal out of range"

def text (e : TokenError) : String :=
  s!"{e.span.start.text}: {e.message}"

end TokenError

end SmallLisp
