import SmallLisp.Form.Error
import SmallLisp.Token.Scanner

/-!
Assembling tokens into forms. The parser is a machine that takes one item at a time and keeps the
constructs that are open; it goes on after every error.
-/
namespace SmallLisp

namespace Parser

inductive Item where
  | token (t : Token)
  | failure (e : TokenError)
  | fault (message : String)

inductive Event where
  | form (f : Form)
  | error (e : ParseError)
  | fault (message : String)

/-- Puts a completed form into the innermost construct, and completes as many constructs as that
allows. A form that reaches the outside is handed out. -/
def absorb : Form → Stack Partial → Option Form × Stack Partial
  | f, [] => (some f, [])
  | f, .marked mark site :: outer => absorb (.marked mark site f) outer
  | f, .ascription site (some type) :: outer => absorb (.ascription site type f) outer
  | f, .ascription site none :: outer => (none, .ascription site (some f) :: outer)
  | f, .group kind opener children :: outer => (none, .group kind opener (children.push f) :: outer)

def complete (f : Form) (opened : Stack Partial) : Option Event × Stack Partial :=
  let (done, opened') := absorb f opened
  (done.map .form, opened')

def close (kind : Delimiter) (closer : Span) : Stack Partial → Option Event × Stack Partial
  | [] => (some (.error (.unmatched kind closer)), [])
  | .group kind' opener children :: outer =>
      if kind' = kind then complete (.group kind opener closer children.bottomUp) outer
      else (some (.error (.mismatch kind closer (.group kind' opener children) outer)), [])
  | inner :: outer => (some (.error (.mismatch kind closer inner outer)), [])

def accept (opened : Stack Partial) (t : Token) : Option Event × Stack Partial :=
  match t.lexeme with
  | .number value => complete (.int value t.span) opened
  | .symbol text => complete (.symbol text t.span) opened
  | .opener kind => (none, opened.push (.group kind t.span .empty))
  | .closer kind => close kind t.span opened
  | .sigil .ascription => (none, opened.push (.ascription t.span none))
  | .sigil (.mark mark) => (none, opened.push (.marked mark t.span))

def feed (opened : Stack Partial) : Item → Option Event × Stack Partial
  | .token t => accept opened t
  | .failure e => (some (.error (.token e opened)), opened)
  | .fault message => (some (.fault message), opened)

def finish : Stack Partial → List Event
  | [] => []
  | inner :: outer => [.error (.unfinished inner outer)]

def run : Stack Partial → List Item → List Event
  | opened, [] => finish opened
  | opened, item :: items =>
      let (event, opened') := feed opened item
      event.toList ++ run opened' items

def Item.ofScanned : Scanned → Item
  | .ok t => .token t
  | .error e => .failure e

end Parser

structure Parser where
  scanner : Lexer
  opened : Stack Partial

namespace Parser

def ofText (text : List Char) : Parser := ⟨.ofText text, .empty⟩

def nextWithin : Nat → Parser → Option Event × Parser
  | 0, p => (none, p)
  | fuel + 1, p =>
      match Scanner.next p.scanner with
      | (none, scanner) => ((finish p.opened).head?, ⟨scanner, .empty⟩)
      | (some i, scanner) =>
          match feed p.opened (.ofScanned i) with
          | (some event, opened) => (some event, ⟨scanner, opened⟩)
          | (none, opened) => nextWithin fuel ⟨scanner, opened⟩

/-- The next form or error; nothing at the end of the text, however often one asks. Each item takes a
character. -/
def next (p : Parser) : Option Event × Parser :=
  nextWithin (p.scanner.rest.length + 1) p

end Parser

def parse (text : List Char) : List Parser.Event :=
  Parser.run .empty ((scan text).map .ofScanned)

def Parser.Event.form? : Event → Option Form
  | .form f => some f
  | _ => none

def Parser.Event.error? : Event → Option ParseError
  | .error e => some e
  | _ => none

def parseForms (text : List Char) : List Form :=
  (parse text).filterMap (·.form?)

def parseErrors (text : List Char) : List ParseError :=
  (parse text).filterMap (·.error?)

def needsMore (text : List Char) : Bool :=
  (parseErrors text).any (·.isIncomplete)

end SmallLisp
