import SmallLisp.Lex.Lexer
import SmallLisp.Text.Class
import SmallLisp.Text.Numeral
import SmallLisp.Token.Basic
import SmallLisp.Token.Error

/-!
Cutting a text into tokens. Blanks are dropped; a character that starts no token is reported, and
scanning goes on behind it.
-/
namespace SmallLisp

def isSymbolChar (c : Char) : Bool :=
  !Text.isBlank c && !Text.isControl c && !isBracket c && !isSigil c

/-- A character that may start a symbol: no symbol starts with a digit of any script. -/
def isSymbolStart (c : Char) : Bool :=
  isSymbolChar c && !Text.isDecimalDigit c

namespace Pattern

def blanks : Pattern := .many (.satisfy Text.isBlank)

def hexDigit : Pattern := .any [.within '0' '9', .within 'A' 'F', .within 'a' 'f']

def numeral : Pattern :=
  .any [.seq [.literal ['0', 'x'], .many hexDigit], .many (.within '0' '9')]

def symbol : Pattern := .all [.satisfy isSymbolStart, .many (.satisfy isSymbolChar)]

end Pattern

def tokenRules : List (Rule TokenKind) :=
  let single (c : Char) (kind : TokenKind) : Rule TokenKind := ⟨.literal [c], kind, true⟩
  [single '(' (.opener .paren), single ')' (.closer .paren),
    single '{' (.opener .brace), single '}' (.closer .brace),
    single '[' (.opener .square), single ']' (.closer .square),
    single ':' (.sigil .ascription), single '\\' (.sigil (.mark .lambda)),
    single '`' (.sigil (.mark .quasiquote)), single '\'' (.sigil (.mark .quote)),
    single '~' (.sigil (.mark .unquote)),
    ⟨.blanks, .blank, false⟩, ⟨.numeral, .number, true⟩, ⟨.symbol, .symbol, true⟩,
    ⟨.eof, .endOfText, false⟩]

abbrev Scanned := Except TokenError Token

namespace Scanner

def scanned (kind : TokenKind) (span : Span) (text : List Char) : Scanned :=
  match kind with
  | .number =>
      match Text.numeral? text with
      | some value => .ok ⟨.number value, span⟩
      | none => .error ⟨.overflow, span⟩
  | _ => .ok ⟨.ofKind kind 0 (String.ofList text), span⟩

inductive Step where
  | ended (l : Lexer)
  | blank (l : Lexer)
  | item (i : Scanned) (l : Lexer)

def step (l : Lexer) : Step :=
  match l.next? tokenRules with
  | some (piece, l') =>
      match piece.tag with
      | .blank => .blank l'
      | .endOfText => .ended l'
      | kind => .item (scanned kind piece.span piece.text) l'
  | none =>
      match l.lookahead? with
      | none => .ended l
      | some c =>
          let (span, l') := l.skip 1
          .item (.error ⟨.invalidChar c.toNat, span⟩) l'

def nextWithin : Nat → Lexer → Option Scanned × Lexer
  | 0, l => (none, l)
  | fuel + 1, l =>
      match step l with
      | .ended l' => (none, l')
      | .blank l' => nextWithin fuel l'
      | .item i l' => (some i, l')

def next (l : Lexer) : Option Scanned × Lexer :=
  nextWithin (l.rest.length + 1) l

def itemsWithin : Nat → Lexer → List Scanned × Lexer
  | 0, l => ([], l)
  | fuel + 1, l =>
      match nextWithin (fuel + 1) l with
      | (none, l') => ([], l')
      | (some i, l') =>
          let (is, l'') := itemsWithin fuel l'
          (i :: is, l'')

def items (l : Lexer) : List Scanned × Lexer :=
  itemsWithin (l.rest.length + 1) l

end Scanner

def scan (text : List Char) : List Scanned :=
  (Scanner.items (.ofText text)).1

def tokenize (text : List Char) : List Token × List TokenError :=
  let items := scan text
  (items.filterMap fun | .ok t => some t | .error _ => none,
    items.filterMap fun | .ok _ => none | .error e => some e)

end SmallLisp
