import SmallLisp.Text.Base64
import SmallLisp.Text.Utf8
import SmallLisp.Yaml.Moment
import SmallLisp.Yaml.Node

namespace SmallLisp.Yaml

inductive Meaning where
  | absent
  | truth (b : Bool)
  | whole (n : Int)
  | fraction (word : Option Nat)
  | moment
  | text (content : String)
deriving DecidableEq, Repr

namespace Meaning

def absentWords : List String := ["", "~", "null", "Null", "NULL"]

def trueWords : List String :=
  ["y", "Y", "yes", "Yes", "YES", "true", "True", "TRUE", "on", "On", "ON"]

def falseWords : List String :=
  ["n", "N", "no", "No", "NO", "false", "False", "FALSE", "off", "Off", "OFF"]

def beyondWords : List String :=
  [".inf", ".Inf", ".INF", "+.inf", "+.Inf", "+.INF", ".nan", ".NaN", ".NAN"]

def belowWords : List String := ["-.inf", "-.Inf", "-.INF"]

def signed : List Char → Bool × List Char
  | '-' :: cs => (true, cs)
  | '+' :: cs => (false, cs)
  | cs => (false, cs)

def exponentLimit : Nat := 99999

def exponent? : List Char → Option Int
  | [] => some 0
  | c :: cs =>
      if c = 'e' ∨ c = 'E' then
        let (negative, cs) := signed cs
        (Text.digits? 10 cs).map fun n =>
          let n := min n exponentLimit
          if negative then -n else n
      else none

def signedLimit : Nat := 9223372036854775808

/-- The unsigned word of the whole part of a number, by sign and absolute value. A number below zero
counts back from the end of the words; where it leaves the signed words, only their sign bit is
left. -/
def wordOf? (negative : Bool) (x : Float) : Option Nat :=
  let limit := Float.ofNat Text.wordLimit
  if negative then
    if x < Float.ofNat signedLimit then
      some ((Text.wordLimit - x.toUInt64.toNat) % Text.wordLimit)
    else some signedLimit
  else if x < limit then some x.toUInt64.toNat
  else if x ≤ limit then some 0
  else none

/-- The value of a number with a fraction or an exponent, rounded to the nearest double, which has
to be finite, and cut off toward zero. -/
def fraction? (cs : List Char) : Option (Option Nat) :=
  let (negative, cs) := signed cs
  let whole := cs.takeWhile Char.isDigit
  let (places, rest) := match cs.dropWhile Char.isDigit with
    | '.' :: rest => (rest.takeWhile Char.isDigit, rest.dropWhile Char.isDigit)
    | rest => ([], rest)
  if whole = [] ∧ places = [] then none
  else
    (exponent? rest).bind fun (e : Int) =>
      let mantissa := Text.valueOf 10 (whole ++ places)
      let scale : Int := e - places.length
      let x := Float.ofScientific mantissa (scale < 0) scale.natAbs
      if x.isFinite then some (wordOf? negative x) else none

def underscoresFit (digitBefore : Bool) : List Char → Bool
  | [] => true
  | '_' :: cs => digitBefore && cs.head?.any Char.isDigit && underscoresFit false cs
  | c :: cs => underscoresFit c.isDigit cs

/-- The value of a whole number. Only a number without a sign may need all bits of an unsigned
word. The sign of a binary number may stand behind the mark of its base. -/
def whole? : List Char → Option Int
  | '-' :: cs => (Text.natural? cs).bind fun n => if n ≤ signedLimit then some (-n) else none
  | '+' :: cs => (Text.natural? cs).bind fun n => if n < signedLimit then some n else none
  | '0' :: 'b' :: '-' :: cs =>
      (Text.digits? 2 cs).bind fun n => if n ≤ signedLimit then some (-n) else none
  | '0' :: 'b' :: '+' :: cs =>
      (Text.digits? 2 cs).bind fun n => if n < signedLimit then some n else none
  | cs => (Text.natural? cs).bind fun n => if n < Text.wordLimit then some n else none

def number? (cs : List Char) : Option Meaning :=
  let digits := cs.filter (· ≠ '_')
  ((whole? digits).map .whole).or ((fraction? digits).map .fraction)

/-- The number that a text starting with a point stands for. Underscores have to stand between
digits. -/
def pointNumber? (cs : List Char) : Option Meaning :=
  if underscoresFit false cs then (fraction? (cs.filter (· ≠ '_'))).map .fraction else none

def ofPlain (text : String) : Meaning :=
  if absentWords.contains text then .absent
  else if trueWords.contains text then .truth true
  else if falseWords.contains text then .truth false
  else if beyondWords.contains text then .fraction none
  else if belowWords.contains text then .fraction (some signedLimit)
  else
    let cs := text.toList
    let found :=
      match cs with
      | [] => none
      | c :: _ =>
          if c = '.' then pointNumber? cs
          else if c = '-' || c = '+' || c.isDigit then
            if Moment.fits cs then some .moment else number? cs
          else none
    found.getD (.text text)

def typeName : Meaning → String
  | .absent => "!!null"
  | .truth _ => "!!bool"
  | .whole _ => "!!int"
  | .fraction _ => "!!float"
  | .moment => "!!timestamp"
  | .text _ => "!!str"

end Meaning

namespace Scalar

def tagStart : String := "tag:yaml.org,2002:"

def asTagged? (name : String) (found : Meaning) : Option Meaning :=
  match name, found with
  | "null", .absent => some found
  | "bool", .truth _ => some found
  | "int", .whole _ => some found
  | "float", .fraction _ => some found
  | "float", .whole n =>
      if n < Meaning.signedLimit then
        some (.fraction (Meaning.wordOf? (n < 0) (Float.ofNat n.natAbs)))
      else none
  | "timestamp", .moment => some found
  | _, _ => none

def checkedTags : List String := ["null", "bool", "int", "float", "timestamp"]

def commonTag? (s : Scalar) : Option String :=
  if s.tag.startsWith tagStart then some (s.tag.drop tagStart.length).toString else none

/-- What a scalar means, unless its tag says otherwise. Tags other than those of the common types
make texts, and the text behind the tag of bytes is encoded. -/
def meaning? (s : Scalar) : Option Meaning :=
  if s.tag = "" then some (if s.isPlain then .ofPlain s.text else .text s.text)
  else
    match s.commonTag? with
    | some "binary" =>
        (Text.Base64.decode? s.text.toList).map fun bytes =>
          .text (String.ofList (Text.decode bytes))
    | some name =>
        if checkedTags.contains name then asTagged? name (.ofPlain s.text) else some (.text s.text)
    | none => some (.text s.text)

def typeName (s : Scalar) : String :=
  if s.tag = "" then (s.meaning?.map Meaning.typeName).getD ""
  else (s.commonTag?.map ("!!" ++ ·)).getD s.tag

def tagComplaint (s : Scalar) : String :=
  if s.commonTag? = some "binary" then s!"{s.typeName} value contains invalid base64 data"
  else s!"cannot decode {(Meaning.ofPlain s.text).typeName} `{s.text}` as a {s.typeName}"

def shownBytes : Nat × Nat := (10, 7)

def described (s : Scalar) : String :=
  let bytes := s.text.toUTF8.toList
  let shown :=
    if shownBytes.1 < bytes.length then
      String.ofList (Text.decode (bytes.take shownBytes.2)) ++ "..."
    else s.text
  s.typeName ++ " `" ++ shown ++ "`"

def isMerge (s : Scalar) : Bool := s.text = "<<" && (s.isPlain || s.tag = tagStart ++ "merge")

end Scalar

end SmallLisp.Yaml
