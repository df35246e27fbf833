import SmallLisp.Lex.Pattern
import SmallLisp.Source.Position

namespace SmallLisp

/-- A pattern and the tag of what it matches. The matches of an inline rule hold no newline. -/
structure Rule (τ : Type) where
  pattern : Pattern
  tag : τ
  inline : Bool

structure Piece (τ : Type) where
  tag : τ
  span : Span
  text : List Char

structure Lexer where
  rest : List Char
  pos : Position
  finished : Bool

namespace Lexer

def ofText (text : List Char) : Lexer := ⟨text, .start, false⟩

def lookahead? (l : Lexer) : Option Char := l.rest.head?

def firstMatch? {τ : Type} : List (Rule τ) → List Char → Option (Rule τ × Nat)
  | [], _ => none
  | r :: rs, cs =>
      match r.pattern.width cs with
      | 0 => firstMatch? rs cs
      | n + 1 => some (r, n + 1)

def cut {τ : Type} (l : Lexer) (r : Rule τ) (n : Nat) : Piece τ × Lexer :=
  let text := l.rest.take n
  let stop := if r.inline then l.pos.advanceColumns text.length else l.pos.advance text
  (⟨r.tag, ⟨l.pos, stop⟩, text⟩, ⟨l.rest.drop n, stop, text.isEmpty⟩)

def next? {τ : Type} (rules : List (Rule τ)) (l : Lexer) : Option (Piece τ × Lexer) :=
  if l.finished then none
  else (firstMatch? rules l.rest).map fun (r, n) => l.cut r n

def skip (l : Lexer) (n : Nat) : Span × Lexer :=
  let stop := l.pos.advance (l.rest.take n)
  (⟨l.pos, stop⟩, { l with rest := l.rest.drop n, pos := stop })

def offsetLimit : Int := 9223372036854775808

/-- Passes over at most `n` characters, unless the offset `n` characters ahead is no longer a
signed word. -/
def skip? (l : Lexer) (n : UInt64) : Option (Span × Lexer) :=
  if l.pos.offset + n.toNat < offsetLimit then some (l.skip n.toNat) else none

end Lexer

end SmallLisp
