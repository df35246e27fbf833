import SmallLisp.Text.Numeral
import SmallLisp.Yaml.Cursor
import SmallLisp.Yaml.Error

namespace SmallLisp.Yaml

abbrev Spelled := Except Error (List Char × Cursor)

structure Gap where
  blanks : List Char
  first : List Char
  later : List Char
  broken : Bool

namespace Gap

def none : Gap := ⟨[], [], [], false⟩

def escaped : Gap := ⟨[], [], [], true⟩

/-- What a gap stands for. A single newline folds to a space, and of several the first is dropped;
line ends of another kind all stay. -/
def text (g : Gap) : List Char :=
  if !g.broken then g.blanks
  else if g.first = ['\n'] then (if g.later = [] then [' '] else g.later)
  else g.first ++ g.later

def take (margin : Nat) : Nat → Gap → Cursor → Except Error (Gap × Cursor)
  | 0, g, c => .ok (g, c)
  | fuel + 1, g, c =>
      if c.meets isBlank then
        if g.broken then
          if c.column < margin && c.sees '\t' then .error (.inText .tabIndent c.line)
          else take margin fuel g (c.skip.need 1)
        else take margin fuel { g with blanks := g.blanks ++ c.rest.take 1 } (c.skip.need 1)
      else if c.meets isBreak then
        let (taken, c) := c.takeBreak
        let g := if g.broken then { g with later := g.later ++ taken } else ⟨[], taken, [], true⟩
        take margin fuel g (c.need 1)
      else .ok (g, c)

end Gap

namespace Plain

def ends (inFlow : Bool) (c : Cursor) : Bool :=
  c.blankAhead 0 || (c.sees ':' && c.blankAhead 1) ||
    (inFlow && c.meets fun ch => [',', '?', '[', ']', '{', '}'].contains ch)

def word (inFlow : Bool) : Nat → Cursor → List Char × Cursor
  | 0, c => ([], c)
  | fuel + 1, c =>
      if ends inFlow c then ([], c)
      else
        let (taken, c') := word inFlow fuel (c.skip.need 2)
        (c.rest.take 1 ++ taken, c')

def words (inFlow : Bool) (margin : Nat) :
    Nat → Gap → Cursor → Except Error (List Char × Bool × Cursor)
  | 0, g, c => .ok ([], g.broken, c)
  | fuel + 1, g, c =>
      let c := c.need 4
      if c.atDocumentMarker || c.sees '#' then .ok ([], g.broken, c)
      else
        match word inFlow c.rest.length c with
        | ([], c) => .ok ([], g.broken, c)
        | (taken, c) => do
            let (g', c) ← Gap.take margin c.rest.length .none c
            let text := g.text ++ taken
            if g'.blanks = [] && !g'.broken || (!inFlow && c.column < margin) then
              .ok (text, g'.broken, c)
            else
              let (more, broken, c) ← words inFlow margin fuel g' c
              .ok (text ++ more, broken, c)

def scan (inFlow : Bool) (margin : Nat) (c : Cursor) : Except Error (List Char × Bool × Cursor) :=
  words inFlow margin (c.rest.length + 1) .none c

end Plain

namespace Quoted

def escape? (ch : Char) : Option Char :=
  match ch with
  | '0' => some '\x00'
  | 'a' => some '\x07'
  | 'b' => some '\x08'
  | 't' => some '\t'
  | '\t' => some '\t'
  | 'n' => some '\n'
  | 'v' => some '\x0b'
  | 'f' => some '\x0c'
  | 'r' => some '\r'
  | 'e' => some '\x1b'
  | ' ' => some ' '
  | '"' => some '"'
  | '\'' => some '\''
  | '\\' => some '\\'
  | 'N' => some '\u0085'
  | '_' => some '\u00a0'
  | 'L' => some '\u2028'
  | 'P' => some '\u2029'
  | _ => none

def escapeDigits? (ch : Char) : Option Nat :=
  match ch with
  | 'x' => some 2
  | 'u' => some 4
  | 'U' => some 8
  | _ => none

def numbered (line n : Nat) (digits : List Char) : Except Error Char :=
  if digits.length < n || !digits.all Text.isHexDigit then .error (.inText .escapeDigits line)
  else
    let code := Text.valueOf 16 digits
    if code.isValidChar then .ok (Char.ofNat code) else .error (.inText .escapeValue line)

def escaped (c : Cursor) : Spelled :=
  match c.peek? 1 with
  | none => .error (.inText .unknownEscape c.line)
  | some ch =>
      match escape? ch, escapeDigits? ch with
      | some ch, _ => .ok ([ch], c.advance 2)
      | none, some n => do
          let c := (c.advance 2).need n
          let ch ← numbered c.line n (c.rest.take n)
          .ok ([ch], c.advance n)
      | none, none => .error (.inText .unknownEscape c.line)

def word (isDouble : Bool) : Nat → Cursor → Except Error (List Char × Bool × Cursor)
  | 0, c => .ok ([], false, c)
  | fuel + 1, c =>
      if c.blankAhead 0 then .ok ([], false, c)
      else if isDouble && c.sees '"' then .ok ([], false, c)
      else if isDouble && c.sees '\\' then
        if (c.peek? 1).any isBreak then .ok ([], true, (c.need 3).skip.takeBreak.2)
        else do
          let (ch, c) ← escaped c
          let (more, broken, c) ← word isDouble fuel (c.need 2)
          .ok (ch ++ more, broken, c)
      else if !isDouble && c.sees '\'' then
        if c.peek? 1 = some '\'' then do
          let (more, broken, c) ← word isDouble fuel ((c.advance 2).need 2)
          .ok ('\'' :: more, broken, c)
        else .ok ([], false, c)
      else do
        let (more, broken, c') ← word isDouble fuel (c.skip.need 2)
        .ok (c.rest.take 1 ++ more, broken, c')

def words (isDouble : Bool) : Nat → Cursor → Spelled
  | 0, c => .error (.inText .outOfFuel c.line)
  | fuel + 1, c =>
      let c := c.need 4
      if c.atDocumentMarker then .error (.inText .markerInQuotes c.line)
      else if c.rest = [] then .error (.inText .endInQuotes c.line)
      else do
        let (text, broken, c) ← word isDouble c.rest.length c
        let c := c.need 1
        if c.sees (if isDouble then '"' else '\'') then .ok (text, c.skip)
        else
          let (gap, c) ← Gap.take 0 c.rest.length (if broken then .escaped else .none) c
          let (more, c) ← words isDouble fuel c
          .ok (text ++ gap.text ++ more, c)

def scan (isDouble : Bool) (c : Cursor) : Spelled :=
  words isDouble (c.rest.length + 1) c.skip

end Quoted

namespace Block

inductive Chomp where
  | strip | clip | keep
deriving DecidableEq, Repr

structure Header where
  chomp : Chomp
  increment : Option Nat
deriving DecidableEq, Repr

def chomp? (c : Cursor) : Option Chomp :=
  if c.sees '+' then some .keep else if c.sees '-' then some .strip else none

def increment (c : Cursor) : Except Error (Option Nat × Cursor) :=
  match c.rest.head? with
  | some ch =>
      if ch = '0' then .error (.inText .zeroIndent c.line)
      else if ch.isDigit then .ok (some (Text.digitValue ch), c.skip)
      else .ok (none, c)
  | none => .ok (none, c)

def header (c : Cursor) : Except Error (Header × Cursor) :=
  let c := c.need 1
  match chomp? c with
  | some chomp => do
      let (n, c) ← increment (c.skip.need 1)
      .ok (⟨chomp, n⟩, c)
  | none => do
      let (n, c) ← increment c
      let c := c.need 1
      match n, chomp? c with
      | some n, some chomp => .ok (⟨chomp, some n⟩, c.skip)
      | n, _ => .ok (⟨.clip, n⟩, c)

/-- Takes the indentation of lines and the ends of empty ones: the line ends and the deepest column
reached. Without an indentation all spaces are taken. -/
def breaks (indent : Option Nat) : Nat → List Char → Nat → Cursor →
    Except Error (List Char × Nat × Cursor)
  | 0, taken, deepest, c => .ok (taken, deepest, c)
  | fuel + 1, taken, deepest, c =>
      let room := (indent.map (· - c.column)).getD c.rest.length
      let (_, c) := Cursor.takeFrom (· = ' ') (c.rest.take room) (c.need 1)
      let deepest := max deepest c.column
      if indent.all (c.column < ·) && c.sees '\t' then .error (.inText .tabIndent c.line)
      else if c.meets isBreak then
        let (ending, c) := c.takeBreak
        breaks indent fuel (taken ++ ending) deepest c
      else .ok (taken, deepest, c)

def lines (isFolded : Bool) (indent : Nat) (chomp : Chomp) :
    Nat → List Char → List Char → List Char → Bool → Cursor → Spelled
  | 0, _, _, _, _, c => .error (.inText .outOfFuel c.line)
  | fuel + 1, text, ending, empty, blankBefore, c =>
      if c.column = indent && c.rest ≠ [] then do
        let blankHere := c.meets isBlank
        let folds := isFolded && !blankBefore && !blankHere && ending = ['\n']
        let joint := if folds then (if empty = [] then [' '] else []) else ending
        let (line, c) := c.takeWhile (!isBreak ·)
        let (ending, c) := c.takeBreak
        let (empty', _, c) ← breaks (some indent) (c.rest.length + 1) [] 0 c
        lines isFolded indent chomp fuel (text ++ joint ++ empty ++ line) ending empty' blankHere c
      else
        match chomp with
        | .strip => .ok (text, c)
        | .clip => .ok (text ++ ending, c)
        | .keep => .ok (text ++ ending ++ empty, c)

/-- The block whose mark is the next character, within constructs that are indented by `outer`. -/
def scan (isFolded : Bool) (outer : Int) (c : Cursor) : Spelled := do
  let (header, c) ← header c.skip
  let c := c.skipComment
  if !c.atLineEnd then .error (.inText .directiveEnd c.line)
  else
    let (_, c) := c.takeBreak
    let given := header.increment.map fun n => outer.toNat + n
    let (empty, deepest, c) ← breaks given (c.rest.length + 1) [] 0 c
    let indent := given.getD (max deepest (max (outer + 1).toNat 1))
    lines isFolded indent header.chomp (c.rest.length + 2) [] [] empty false c

end Block

end SmallLisp.Yaml
