import SmallLisp.Layout.Doc
import SmallLisp.Layout.Page

/-!
Setting expressions in lines of a given width. What does not fit is broken in rounds: each round
breaks more places, until all lines fit or the last round is reached.
-/
namespace SmallLisp

/-- How a list with a certain head is broken: the first items stay on the line of the head, the
others go to lines of their own from the given round on. -/
structure HeadRule where
  head : String
  inline : Nat
  priority : Nat
deriving DecidableEq, Repr

structure Chunk where
  priority : Option Nat
  indent : Nat
  contents : Doc

namespace HeadRule

def applies (r : HeadRule) : List Doc → Bool
  | [] => false
  | d :: _ => r.head == "" || d.isNamed r.head

def priorityAt (r : HeadRule) (i : Nat) : Option Nat :=
  if i < r.inline then none else some r.priority

def indentAt (r : HeadRule) (i : Nat) : Nat :=
  if i < r.inline then 0 else 1

def split? (r : HeadRule) (items : List Doc) : Option (List Chunk) :=
  if r.applies items then
    some (items.zipIdx.map fun (d, i) => ⟨r.priorityAt i, r.indentAt i, d⟩)
  else none

def standard : List HeadRule :=
  [⟨"lambda", 2, 1⟩, ⟨"the", 2, 1⟩, ⟨"def", 2, 1⟩, ⟨"macro", 1, 1⟩, ⟨"", 1, 2⟩]

end HeadRule

structure Printer where
  width : Nat
  rules : List HeadRule

namespace Printer

def new (width : Nat) : Printer := ⟨width, HeadRule.standard⟩

def bare : Printer := ⟨0, []⟩

def add (p : Printer) (r : HeadRule) : Printer := { p with rules := p.rules ++ [r] }

def breaks (round : Nat) : Option Nat → Bool
  | some priority => priority ≤ round
  | none => false

def place (broken isFirst : Bool) (indent : Nat) (put : Page → Page) (page : Page) : Page :=
  if broken then (put (page.indentBy indent).newLine).indentBy (-indent)
  else if isFirst then put page
  else put (page.write " ")

/-- What already fits on the line is not broken. -/
def roundFor (width round : Nat) (page : Page) (d : Doc) : Nat :=
  if page.lineWidth + d.flat.utf8ByteSize ≤ width then 0 else round

def keyPriority (i : Nat) : Option Nat := if i = 0 then none else some 2

mutual

def put (p : Printer) (round : Nat) : Doc → Page → Page
  | .word text _, page => page.write text
  | .list items, page =>
      let round := roundFor p.width round page (.list items)
      match p.rules.find? (·.applies items) with
      | some r => (putItems p round r 0 items (page.write "(")).write ")"
      | none => page.write (Doc.list items).flat
  | .map entries, page =>
      let round := roundFor p.width round page (.map entries)
      (putEntries p round 0 entries (page.write "\x7b")).write "\x7d"

def putItems (p : Printer) (round : Nat) (r : HeadRule) (i : Nat) : List Doc → Page → Page
  | [], page => page
  | d :: ds, page =>
      putItems p round r (i + 1) ds
        (place (breaks round (r.priorityAt i)) (i == 0) (r.indentAt i) (put p round d) page)

def putEntries (p : Printer) (round : Nat) (i : Nat) : List (Doc × Doc) → Page → Page
  | [], page => page
  | (k, v) :: es, page =>
      putEntries p round (i + 1) es
        (place false false 0 (put p round v)
          (place (breaks round (keyPriority i)) (i == 0) 1 (put p round k) page))

end

def lastRound : Nat := 4

/-- The page of the first round from `round` on in which all lines fit, or of the last one. -/
def fitting (p : Printer) (d : Doc) : Nat → Nat → Page
  | 0, round => put p round d .blank
  | more + 1, round =>
      let page := put p round d .blank
      if page.maxWidth ≤ p.width then page else fitting p d more (round + 1)

def layout (p : Printer) (d : Doc) : Page := fitting p d lastRound 0

def format (p : Printer) (e : Expr) : String := (p.layout e.doc).text

end Printer

end SmallLisp
