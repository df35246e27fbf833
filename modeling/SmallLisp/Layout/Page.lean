import SmallLisp.Source.Position
import SmallLisp.Stack

namespace SmallLisp

structure Page where
  /-- How many levels new lines are indented; none if negative. -/
  indent : Int
  lines : Stack String

namespace Page

def blank : Page := ⟨0, .empty⟩

def level : List Char := [' ', ' ', ' ']

def margin (indent : Int) : String :=
  String.ofList (List.replicate indent.toNat level).flatten

def indentBy (p : Page) (levels : Int) : Page := { p with indent := p.indent + levels }

def newLine (p : Page) : Page := { p with lines := p.lines.push (margin p.indent) }

inductive MarginFault where
  | overflow
  | exhausted
deriving DecidableEq, Repr

def longestText : Nat := 9223372036854775807

/-- The longest text that a memory can be asked for. -/
def largestMemory : Nat := 281474976710656

def newLineChecked (p : Page) : Except MarginFault Page :=
  let indent := signedWord p.indent
  let width := indent.toNat * level.length
  if longestText < width then .error .overflow
  else if largestMemory < width then .error .exhausted
  else .ok { p with lines := p.lines.push (margin indent) }

def write (p : Page) (s : String) : Page :=
  match p.lines with
  | [] => { p with lines := [s] }
  | line :: lines => { p with lines := (line ++ s) :: lines }

def lineWidth (p : Page) : Nat := (p.lines.top?.map String.utf8ByteSize).getD 0

def maxWidth (p : Page) : Nat := p.lines.foldl (fun w line => max w line.utf8ByteSize) 0

def text (p : Page) : String := String.join (p.lines.bottomUp.map (· ++ "\n"))

end Page

end SmallLisp
