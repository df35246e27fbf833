import SmallLisp.Yaml.Property
import SmallLisp.Yaml.Spelling

/-!
Documents as streams of tokens. Where a line is indented further than the constructs around it, a
block opens, and where it is indented less, blocks close. What may turn out to be a key is held
back until the colon behind it is seen, or can no longer follow: a key takes one line and at most
1024 characters.
-/
namespace SmallLisp.Yaml

structure KeyCandidate where
  possible : Bool
  required : Bool
  number : Nat
  held : Bool
  index : Nat
  line : Nat
  column : Nat

structure Stream where
  cursor : Cursor
  queue : List Token
  taken : Nat
  /-- The indentation of the innermost block; negative outside of all blocks. -/
  indent : Int
  indents : List Int
  keyAllowed : Bool
  candidate : KeyCandidate
  outer : List KeyCandidate

namespace Stream

def maxDepth : Nat := 10000

def maxKeyLength : Nat := 1024

def noCandidate (number : Nat) (c : Cursor) : KeyCandidate :=
  ⟨false, false, number, false, c.index, c.line, c.column⟩

def ofText (text : List Char) : Stream :=
  let c := Cursor.ofText text
  ⟨c, [], 0, -1, [], true, noCandidate 0 c, []⟩

def inFlow (s : Stream) : Bool := !s.outer.isEmpty

def nextNumber (s : Stream) : Nat := s.taken + s.queue.length

def fail {α : Type} (s : Stream) (problem : Problem) : Except Error α :=
  .error (.inText problem s.cursor.line)

def push (s : Stream) (kind : TokenKind) (line : Nat) : Stream :=
  { s with queue := s.queue ++ [⟨kind, line⟩] }

def insert (s : Stream) (number : Nat) (kind : TokenKind) (line : Nat) : Stream :=
  if number < s.taken then s.push kind line
  else
    let place := number - s.taken
    { s with queue := s.queue.take place ++ ⟨kind, line⟩ :: s.queue.drop place }

def takeMark (s : Stream) (kind : TokenKind) (n : Nat) : Stream :=
  { s.push kind s.cursor.line with cursor := s.cursor.advance n }

def isStale (s : Stream) (k : KeyCandidate) : Bool :=
  k.line < s.cursor.line || k.index + maxKeyLength < s.cursor.index

def dropCandidate (s : Stream) : Except Error Stream :=
  if s.candidate.possible && s.candidate.required then s.fail .keyWithoutColon
  else .ok { s with candidate := { s.candidate with possible := false } }

def noteCandidate (s : Stream) : Except Error Stream :=
  if s.keyAllowed then do
    let s ← s.dropCandidate
    let c := s.cursor
    .ok { s with
      candidate := ⟨true, !s.inFlow && s.indent = c.column, s.nextNumber, true, c.index, c.line,
        c.column⟩ }
  else .ok s

def openBlock (s : Stream) (column : Nat) (place : Stream → Stream) : Except Error Stream :=
  if s.inFlow || column ≤ s.indent then .ok s
  else if maxDepth < s.indents.length + 1 then s.fail .tooDeep
  else .ok (place { s with indent := column, indents := s.indent :: s.indents })

def closeBlocksWithin (column : Int) : List Int → Stream → Stream
  | [], s => s
  | indent :: indents, s =>
      if column < s.indent then
        closeBlocksWithin column indents
          { s.push .blockEnd s.cursor.line with indent := indent, indents := indents }
      else s

def closeBlocks (s : Stream) (column : Int) : Stream :=
  if s.inFlow then s else closeBlocksWithin column s.indents s

def skipToToken : Nat → Stream → Stream
  | 0, s => s
  | fuel + 1, s =>
      let c := s.cursor.skipMark.skipWhile fun ch =>
        ch = ' ' || ((s.inFlow || !s.keyAllowed) && ch = '\t')
      let c := if c.sees '#' then c.skipWhile (!isBreak ·) else c
      if c.meets isBreak then
        skipToToken fuel { s with cursor := c.takeBreak.2, keyAllowed := s.keyAllowed || !s.inFlow }
      else { s with cursor := c }

def fetchEnd (s : Stream) : Except Error Stream := do
  let c := s.cursor
  let c := if c.column = 0 then c else { c with column := 0, line := c.line + 1 }
  let s ← ({ s with cursor := c }.closeBlocks (-1)).dropCandidate
  .ok ({ s with keyAllowed := false }.push .streamEnd c.line)

def leaveBlocks (s : Stream) : Except Error Stream := do
  let s ← (s.closeBlocks (-1)).dropCandidate
  .ok { s with keyAllowed := false }

def fetchDirective (s : Stream) : Except Error Stream := do
  let s ← s.leaveBlocks
  let line := s.cursor.line
  let (kind, c) ← Directive.scan s.cursor
  .ok { s.push kind line with cursor := c }

def fetchDocumentMark (s : Stream) (kind : TokenKind) : Except Error Stream := do
  let s ← s.leaveBlocks
  .ok (s.takeMark kind 3)

def fetchFlowStart (s : Stream) (kind : TokenKind) : Except Error Stream := do
  let s ← s.noteCandidate
  let s := { s with
    outer := s.candidate :: s.outer
    candidate := noCandidate s.nextNumber s.cursor
    keyAllowed := true }
  if maxDepth < s.outer.length then s.fail .tooDeep else .ok (s.takeMark kind 1)

/-- Leaves the innermost brackets. An empty pair of brackets is no longer held back. -/
def leaveFlow (s : Stream) : Stream :=
  match s.outer with
  | [] => s
  | k :: outer =>
      let release (k : KeyCandidate) : KeyCandidate :=
        { k with held := k.held && k.number ≠ s.candidate.number }
      { s with candidate := release k, outer := outer }

def fetchFlowEnd (s : Stream) (kind : TokenKind) : Except Error Stream := do
  let s ← s.dropCandidate
  .ok ({ s.leaveFlow with keyAllowed := false }.takeMark kind 1)

def fetchFlowEntry (s : Stream) : Except Error Stream := do
  let s ← s.dropCandidate
  .ok ({ s with keyAllowed := true }.takeMark .flowEntry 1)

def fetchBlockEntry (s : Stream) : Except Error Stream := do
  if !s.inFlow && !s.keyAllowed then s.fail .entryHere
  else
    let s ← s.openBlock s.cursor.column (·.push .blockListStart s.cursor.line)
    let s ← s.dropCandidate
    .ok ({ s with keyAllowed := true }.takeMark .blockEntry 1)

def fetchKey (s : Stream) : Except Error Stream := do
  if !s.inFlow && !s.keyAllowed then s.fail .keyHere
  else
    let s ← s.openBlock s.cursor.column (·.push .blockMapStart s.cursor.line)
    let s ← s.dropCandidate
    .ok ({ s with keyAllowed := !s.inFlow }.takeMark .key 1)

def fetchValue (s : Stream) : Except Error Stream := do
  let k := s.candidate
  if k.possible && s.isStale k && k.required then s.fail .keyWithoutColon
  else if k.possible && !s.isStale k then
    let s := s.insert k.number .key k.line
    let s ← s.openBlock k.column (·.insert k.number .blockMapStart k.line)
    let s := { s with candidate := { k with possible := false }, keyAllowed := false }
    .ok (s.takeMark .value 1)
  else
    let s := { s with candidate := { k with possible := false } }
    if !s.inFlow && !s.keyAllowed then s.fail .valueHere
    else
      let s ← s.openBlock s.cursor.column (·.push .blockMapStart s.cursor.line)
      .ok ({ s with keyAllowed := !s.inFlow }.takeMark .value 1)

def fetchProperty (s : Stream) (scan : Cursor → Scanned) : Except Error Stream := do
  let s ← s.noteCandidate
  let line := s.cursor.line
  let (kind, c) ← scan s.cursor
  .ok { s.push kind line with cursor := c, keyAllowed := false }

def fetchBlockScalar (s : Stream) (isFolded : Bool) : Except Error Stream := do
  let s ← s.dropCandidate
  let line := s.cursor.line
  let (text, c) ← Block.scan isFolded s.indent s.cursor
  .ok { s.push (.scalar (String.ofList text) false) line with cursor := c, keyAllowed := true }

def fetchQuoted (s : Stream) (isDouble : Bool) : Except Error Stream := do
  let s ← s.noteCandidate
  let line := s.cursor.line
  let (text, c) ← Quoted.scan isDouble s.cursor
  .ok { s.push (.scalar (String.ofList text) false) line with cursor := c, keyAllowed := false }

def fetchPlain (s : Stream) : Except Error Stream := do
  let s ← s.noteCandidate
  let line := s.cursor.line
  let (text, broken, c) ← Plain.scan s.inFlow (s.indent + 1).toNat s.cursor
  .ok { s.push (.scalar (String.ofList text) true) line with cursor := c, keyAllowed := broken }

def indicators : List Char :=
  ['-', '?', ':', ',', '[', ']', '{', '}', '#', '&', '*', '!', '|', '>', '\'', '"', '%', '@', '`']

def startsPlain (s : Stream) (ch : Char) : Bool :=
  (!isBlank ch && !isBreak ch && !indicators.contains ch) ||
    (ch = '-' && (s.cursor.peek? 1).all (!isBlank ·)) ||
    (!s.inFlow && (ch = '?' || ch = ':') && !s.cursor.blankAhead 1)

def fetchAny (s : Stream) : Except Error Stream :=
  let s := skipToToken (s.cursor.rest.length + 1) s
  let s := s.closeBlocks s.cursor.column
  let c := s.cursor.need 4
  let s := { s with cursor := c }
  match c.rest with
  | [] => s.fetchEnd
  | ch :: _ =>
      if c.column = 0 && ch = '%' then s.fetchDirective
      else if c.atMarker '-' then s.fetchDocumentMark .documentStart
      else if c.atMarker '.' then s.fetchDocumentMark .documentEnd
      else if ch = '[' then s.fetchFlowStart .flowListStart
      else if ch = '{' then s.fetchFlowStart .flowMapStart
      else if ch = ']' then s.fetchFlowEnd .flowListEnd
      else if ch = '}' then s.fetchFlowEnd .flowMapEnd
      else if ch = ',' then s.fetchFlowEntry
      else if ch = '-' && c.blankAhead 1 then s.fetchBlockEntry
      else if ch = '?' && (s.inFlow || c.blankAhead 1) then s.fetchKey
      else if ch = ':' && (s.inFlow || c.blankAhead 1) then s.fetchValue
      else if ch = '*' then s.fetchProperty (scanName .reference)
      else if ch = '&' then s.fetchProperty (scanName .anchor)
      else if ch = '!' then s.fetchProperty Tag.scan
      else if ch = '|' && !s.inFlow then s.fetchBlockScalar false
      else if ch = '>' && !s.inFlow then s.fetchBlockScalar true
      else if ch = '\'' then s.fetchQuoted false
      else if ch = '"' then s.fetchQuoted true
      else if s.startsPlain ch then s.fetchPlain
      else s.fail .strayCharacter

def fetch (s : Stream) : Except Error Stream := do
  let s ← s.fetchAny
  if s.cursor.window.isClean then .ok s else s.fail .controlCharacter

def holder? (s : Stream) : Option KeyCandidate :=
  (s.candidate :: s.outer).find? fun k => k.possible && k.held && k.number = s.taken

def settle : Nat → Stream → Except Error Stream
  | 0, s => s.fail .outOfFuel
  | fuel + 1, s =>
      if s.queue.isEmpty then do settle fuel (← s.fetch)
      else
        match s.holder? with
        | none => .ok s
        | some k =>
            if !s.isStale k then do settle fuel (← s.fetch)
            else if k.required then s.fail .keyWithoutColon
            else
              let release (k' : KeyCandidate) : KeyCandidate :=
                if k'.number = k.number then { k' with possible := false } else k'
              .ok { s with candidate := release s.candidate, outer := s.outer.map release }

def peek (s : Stream) : Except Error (Token × Stream) := do
  let s ← settle (s.cursor.rest.length + 2) s
  match s.queue with
  | token :: _ => .ok (token, s)
  | [] => s.fail .outOfFuel

def skip (s : Stream) : Stream := { s with queue := s.queue.tail, taken := s.taken + 1 }

end Stream

end SmallLisp.Yaml
