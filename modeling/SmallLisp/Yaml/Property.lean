import SmallLisp.Text.Numeral
import SmallLisp.Text.Utf8
import SmallLisp.Yaml.Cursor
import SmallLisp.Yaml.Error
import SmallLisp.Yaml.Token

namespace SmallLisp.Yaml

abbrev Scanned := Except Error (TokenKind × Cursor)

def endsName (c : Cursor) : Bool :=
  c.blankAhead 0 || c.meets fun ch => ['?', ':', ',', ']', '}', '%', '@', '`'].contains ch

def scanName (make : String → TokenKind) (c : Cursor) : Scanned :=
  let (name, c) := c.skip.takeWhile isNameChar
  if name = [] || !endsName c then .error (.inText .anchorName c.line)
  else .ok (make (String.ofList name), c)

namespace Tag

def isTagChar (ch : Char) : Bool :=
  isNameChar ch || [';', '/', '?', ':', '@', '&', '=', '+', '$', ',', '.', '!', '~', '*', '\'',
    '(', ')', '[', ']'].contains ch

def handle (c : Cursor) : List Char × Cursor :=
  let (name, c) := c.skip.takeWhile isNameChar
  if c.sees '!' then ('!' :: name ++ ['!'], c.skip) else ('!' :: name, c)

def octet (c : Cursor) : Except Error (UInt8 × Cursor) :=
  let c := c.need 3
  match c.rest with
  | '%' :: a :: b :: _ =>
      if Text.isHexDigit a && Text.isHexDigit b then
        .ok (UInt8.ofNat (Text.valueOf 16 [a, b]), c.advance 3)
      else .error (.inText .tagOctet c.line)
  | _ => .error (.inText .tagOctet c.line)

def followers? (lead : UInt8) : Option Nat :=
  if lead < 0x80 then some 0
  else if lead < 0xC0 then none
  else if lead < 0xE0 then some 1
  else if lead < 0xF0 then some 2
  else if lead < 0xF8 then some 3
  else none

def continuation : Nat → Cursor → Except Error (List UInt8 × Cursor)
  | 0, c => .ok ([], c)
  | n + 1, c => do
      let (byte, c') ← octet c
      if Text.isContinuation byte then
        let (bytes, c') ← continuation n c'
        .ok (byte :: bytes, c')
      else .error (.inText .tagOctet c.line)

def escapedBytes (c : Cursor) : Except Error (List UInt8 × Cursor) := do
  let (lead, c) ← octet c
  match followers? lead with
  | none => .error (.inText .tagOctet c.line)
  | some n =>
      let (bytes, c) ← continuation n c
      .ok (lead :: bytes, c)

def tagChars : Nat → Cursor → Except Error (List Char × Cursor)
  | 0, c => .ok ([], c)
  | fuel + 1, c =>
      let c := c.need 1
      if c.sees '%' then do
        let (bytes, c) ← escapedBytes c
        let (more, c) ← tagChars fuel c
        .ok (Text.decode bytes ++ more, c)
      else
        match c.takeWhile isTagChar with
        | ([], c) => .ok ([], c)
        | (taken, c) => do
            let (more, c) ← tagChars fuel c
            .ok (taken ++ more, c)

def suffix (start : List Char) (c : Cursor) : Except Error (List Char × Cursor) := do
  let (taken, c') ← tagChars (c.rest.length + 1) c
  if start = [] && taken = [] then .error (.inText .tagText c.line)
  else .ok (start.drop 1 ++ taken, c')

def parts (c : Cursor) : Except Error (List Char × List Char × Cursor) :=
  let c := c.need 2
  if c.peek? 1 = some '<' then do
    let (suffix, c) ← suffix [] (c.advance 2)
    if c.sees '>' then .ok ([], suffix, c.skip) else .error (.inText .tagClose c.line)
  else
    let (start, c) := handle c
    if 1 < start.length && start.getLast? = some '!' then do
      let (suffix, c) ← suffix [] c
      .ok (start, suffix, c)
    else do
      let (suffix, c) ← suffix start c
      .ok (if suffix = [] then ([], start, c) else (['!'], suffix, c))

def scan (c : Cursor) : Scanned := do
  let (handle, suffix, c) ← parts c
  let c := c.need 1
  if c.blankAhead 0 then .ok (.tag (String.ofList handle) (String.ofList suffix), c)
  else .error (.inText .tagEnd c.line)

end Tag

namespace Directive

def number (c : Cursor) : Except Error (Nat × Cursor) :=
  let (digits, c) := c.takeWhile Char.isDigit
  if digits = [] || 2 < digits.length then .error (.inText .versionNumber c.line)
  else .ok (Text.valueOf 10 digits, c)

def version (c : Cursor) : Scanned := do
  let (major, c) ← number (c.skipWhile isBlank)
  if !c.sees '.' then .error (.inText .versionPoint c.line)
  else
    let (minor, c) ← number c.skip
    .ok (.version major minor, c)

def tagHandle (c : Cursor) : Scanned :=
  let c := c.skipWhile isBlank
  if !c.sees '!' then .error (.inText .tagMark c.line)
  else
    let (handle, c) := Tag.handle c
    let c := c.need 1
    if handle ≠ ['!'] && handle.getLast? ≠ some '!' then .error (.inText .tagMark c.line)
    else if !c.meets isBlank then .error (.inText .directiveBlank c.line)
    else do
      let (start, c) ← Tag.suffix [] (c.skipWhile isBlank)
      if c.blankAhead 0 then .ok (.tagHandle (String.ofList handle) (String.ofList start), c)
      else .error (.inText .tagEnd c.line)

def scan (c : Cursor) : Scanned :=
  let (name, c) := c.skip.takeWhile isNameChar
  if name = [] || !c.blankAhead 0 then .error (.inText .directiveName c.line)
  else do
    let (token, c) ←
      if name = "YAML".toList then version c
      else if name = "TAG".toList then tagHandle c
      else .error (.inText .unknownDirective c.line)
    let c := c.skipComment
    if c.atLineEnd then .ok (token, c.takeBreak.2) else .error (.inText .directiveEnd c.line)

end Directive

end SmallLisp.Yaml
