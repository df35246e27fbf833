import SmallLisp.Source.Position

namespace SmallLisp

/-- What tells one file from another. Two files may share a name, never a number. -/
structure FileRef where
  id : Nat
  name : String
deriving DecidableEq, Repr

structure File extends FileRef where
  contents : List Char
deriving DecidableEq, Repr

structure Line where
  number : Nat
  start : Nat
  text : List Char
deriving DecidableEq, Repr

namespace Line

def length (l : Line) : Nat := l.text.length

/-- The line `number`, which starts at `start` with the characters `seen` (the last one first), and
which holds the character `ahead` places further on, or else is the last line. -/
def find (number start : Nat) (seen : List Char) (ahead : Int) : List Char → Line
  | [] => ⟨number, start, seen.reverse⟩
  | c :: cs =>
      if ahead = 0 then ⟨number, start, seen.reverse ++ (c :: cs).takeWhile (· ≠ '\n')⟩
      else if c = '\n' then find (number + 1) (start + seen.length + 1) [] (ahead - 1) cs
      else find number start (c :: seen) (ahead - 1) cs

/-- The line of a text that holds the given offset. A newline belongs to the line it ends; an
offset outside the text is taken to mean the last line. -/
def enclosing (text : List Char) (offset : Int) : Line :=
  find 1 0 [] offset text

end Line

namespace File

/-- The text under a span, cut off at the end of the file. Spans that start before the file cover
no text. -/
def slice? (f : File) (s : Span) : Option (List Char) :=
  if s.start.offset < 0 then none
  else some ((f.contents.take s.stop.offset.toNat).drop s.start.offset.toNat)

def lineOf (f : File) (s : Span) : Line :=
  Line.enclosing f.contents s.start.offset

end File

structure Diagnostic where
  file : File
  span : Span
  message : String
deriving DecidableEq, Repr

namespace Diagnostic

def text (d : Diagnostic) : String :=
  s!"{d.file.name}:{d.span.start.text}:{d.message}"

def line (d : Diagnostic) : Line :=
  d.file.lineOf d.span

/-- How many characters of the line are marked: the span, as far as it lies on its first line. -/
def extent (d : Diagnostic) : Int :=
  min (d.line.length - d.span.start.column) d.span.length

/-- The message, then the line, then a row of carets under the marked characters: at least one,
even behind the end of the line. -/
def report (d : Diagnostic) : String :=
  let column := d.span.start.column
  s!"{d.file.name}:{d.line.number}:{column + 1}-{column + 1 + d.extent} {d.message}\n\n" ++
    String.ofList d.line.text ++ "\n" ++
    String.ofList (List.replicate column.toNat ' ') ++
    String.ofList (List.replicate (max 1 d.extent).toNat '^') ++ "\n"

end Diagnostic

end SmallLisp
