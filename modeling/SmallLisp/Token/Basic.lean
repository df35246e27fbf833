import SmallLisp.Source.Position

namespace SmallLisp

inductive Delimiter where
  | paren | brace | square
deriving DecidableEq, Repr

namespace Delimiter

def opening : Delimiter → Char
  | .paren => '('
  | .brace => '{'
  | .square => '['

def closing : Delimiter → Char
  | .paren => ')'
  | .brace => '}'
  | .square => ']'

def text (d : Delimiter) : String :=
  String.ofList [d.opening, d.closing]

def ofCode? : Nat → Option Delimiter
  | 0 => some .paren
  | 1 => some .brace
  | 2 => some .square
  | _ => none

end Delimiter

inductive Mark where
  | lambda | quasiquote | quote | unquote
deriving DecidableEq, Repr

/-- The characters that introduce an operand: the colon of a type ascription, which takes a type and
a value, and the marks. -/
inductive Sigil where
  | ascription
  | mark (m : Mark)
deriving DecidableEq, Repr

def Mark.char : Mark → Char
  | .lambda => '\\'
  | .quasiquote => '`'
  | .quote => '\''
  | .unquote => '~'

namespace Sigil

def char : Sigil → Char
  | .ascription => ':'
  | .mark m => m.char

def arity : Sigil → Nat
  | .ascription => 2
  | .mark _ => 1

def ofCode? : Nat → Option Sigil
  | 0 => some .ascription
  | 1 => some (.mark .lambda)
  | 2 => some (.mark .quasiquote)
  | 3 => some (.mark .quote)
  | 4 => some (.mark .unquote)
  | _ => none

end Sigil

def isBracket (c : Char) : Bool :=
  [Delimiter.paren, .brace, .square].any fun d => c == d.opening || c == d.closing

def isSigil (c : Char) : Bool :=
  [Sigil.ascription, .mark .lambda, .mark .quasiquote, .mark .quote, .mark .unquote].any
    fun s => c == s.char

inductive TokenKind where
  | endOfText | blank | number | symbol
  | opener (d : Delimiter)
  | closer (d : Delimiter)
  | sigil (s : Sigil)
  | unnamed (code : Nat)
deriving DecidableEq, Repr

namespace TokenKind

def all : List TokenKind :=
  [.endOfText, .blank, .number, .symbol,
    .opener .paren, .closer .paren, .opener .brace, .closer .brace, .opener .square,
    .closer .square, .sigil .ascription, .sigil (.mark .lambda), .sigil (.mark .quasiquote),
    .sigil (.mark .quote), .sigil (.mark .unquote)]

def ofCode (code : Nat) : TokenKind :=
  all[code]?.getD (.unnamed code)

def code : TokenKind → Nat
  | .unnamed n => n
  | k => all.idxOf k

def name : TokenKind → String
  | .endOfText => "end of file"
  | .blank => "whitespace"
  | .number => "number"
  | .symbol => "symbol"
  | .opener d => d.opening.toString
  | .closer d => d.closing.toString
  | .sigil s => s.char.toString
  | .unnamed code => s!"kind#{code}"

end TokenKind

inductive Lexeme where
  | number (value : Int64)
  | symbol (text : String)
  | opener (d : Delimiter)
  | closer (d : Delimiter)
  | sigil (s : Sigil)
deriving DecidableEq, Repr

namespace Lexeme

def kind : Lexeme → TokenKind
  | .number _ => .number
  | .symbol _ => .symbol
  | .opener d => .opener d
  | .closer d => .closer d
  | .sigil s => .sigil s

def ofKind (kind : TokenKind) (value : Int64) (text : String) : Lexeme :=
  match kind with
  | .number => .number value
  | .opener d => .opener d
  | .closer d => .closer d
  | .sigil s => .sigil s
  | _ => .symbol text

def text : Lexeme → String
  | .number value => toString value.toInt
  | .symbol text => text
  | .opener d => d.opening.toString
  | .closer d => d.closing.toString
  | .sigil s => s.char.toString

end Lexeme

structure Token where
  lexeme : Lexeme
  span : Span
deriving DecidableEq, Repr

end SmallLisp
