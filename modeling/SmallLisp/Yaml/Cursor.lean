import SmallLisp.Yaml.Window

namespace SmallLisp.Yaml

def isBlank (c : Char) : Bool := c = ' ' || c = '\t'

def isBreak (c : Char) : Bool :=
  c = '\r' || c = '\n' || c = '\u0085' || c = '\u2028' || c = '\u2029'

def isNameChar (c : Char) : Bool := c.isAlphanum || c = '_' || c = '-'

structure Cursor where
  rest : List Char
  index : Nat
  line : Nat
  column : Nat
  window : Window

namespace Cursor

def ofText : List Char → Cursor
  | [] => ⟨[], 0, 0, 0, .closed []⟩
  | c :: cs =>
      if c = byteOrderMark then
        ⟨cs, 0, 0, 0, .closed (Portion.divide (Portion.maxBytes - c.utf8Size) .empty cs)⟩
      else ⟨c :: cs, 0, 0, 0, .closed (Portion.divide Portion.maxBytes .empty (c :: cs))⟩

def need (c : Cursor) (n : Nat) : Cursor :=
  { c with window := c.window.need n c.rest.head? }

def peek? (c : Cursor) (n : Nat) : Option Char := c.rest[n]?

def sees (c : Cursor) (ch : Char) : Bool := c.rest.head? = some ch

def meets (c : Cursor) (test : Char → Bool) : Bool := c.rest.head?.any test

def blankAhead (c : Cursor) (n : Nat) : Bool :=
  (c.peek? n).all fun ch => isBlank ch || isBreak ch

def atLineEnd (c : Cursor) : Bool := c.rest.head?.all isBreak

def advance (c : Cursor) (n : Nat) : Cursor :=
  ⟨c.rest.drop n, c.index + n, c.line, c.column + n, c.window.pass n⟩

def skip (c : Cursor) : Cursor := c.advance 1

def takeFrom (test : Char → Bool) : List Char → Cursor → List Char × Cursor
  | [], c => ([], c)
  | ch :: cs, c =>
      if test ch then
        let (taken, c) := takeFrom test cs (c.skip.need 1)
        (ch :: taken, c)
      else ([], c)

def takeWhile (c : Cursor) (test : Char → Bool) : List Char × Cursor :=
  takeFrom test c.rest (c.need 1)

def skipWhile (c : Cursor) (test : Char → Bool) : Cursor := (c.takeWhile test).2

def normalBreak (ch : Char) : Char := if ch = '\u2028' || ch = '\u2029' then ch else '\n'

def nextLine (c : Cursor) (size : Nat) : Cursor :=
  ⟨c.rest.drop size, c.index + size, c.line + 1, 0, c.window.pass size⟩

def takeBreak (c : Cursor) : List Char × Cursor :=
  match c.rest with
  | '\r' :: '\n' :: _ => (['\n'], (c.need 2).nextLine 2)
  | ch :: _ => if isBreak ch then ([normalBreak ch], (c.need 2).nextLine 1) else ([], c)
  | [] => ([], c)

def skipComment (c : Cursor) : Cursor :=
  let c := c.skipWhile isBlank
  if c.sees '#' then c.skipWhile (!isBreak ·) else c

def atMarker (c : Cursor) (ch : Char) : Bool :=
  c.column = 0 && [ch, ch, ch].isPrefixOf c.rest && c.blankAhead 3

def atDocumentMarker (c : Cursor) : Bool := c.atMarker '-' || c.atMarker '.'

def skipMark (c : Cursor) : Cursor :=
  let c := c.need 1
  if c.column = 0 && c.window.first = some byteOrderMark then c.skip else c

end Cursor

end SmallLisp.Yaml
