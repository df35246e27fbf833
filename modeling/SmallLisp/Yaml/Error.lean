namespace SmallLisp.Yaml

inductive Problem where
  | controlCharacter
  | strayCharacter
  | tooDeep
  | keyWithoutColon
  | entryHere
  | keyHere
  | valueHere
  | unknownDirective
  | directiveName
  | directiveBlank
  | directiveEnd
  | versionNumber
  | versionPoint
  | wrongVersion
  | repeatedVersion
  | repeatedTagHandle
  | tagMark
  | tagText
  | tagOctet
  | tagClose
  | tagEnd
  | unknownTagHandle
  | anchorName
  | unknownAnchor (name : String)
  | zeroIndent
  | tabIndent
  | markerInQuotes
  | endInQuotes
  | unknownEscape
  | escapeDigits
  | escapeValue
  | noDocumentStart
  | noContent
  | noEntry
  | noKey
  | noListEnd
  | noMapEnd
  | outOfFuel
deriving DecidableEq, Repr

def Problem.text : Problem → String
  | .controlCharacter => "control characters are not allowed"
  | .strayCharacter => "found character that cannot start any token"
  | .tooDeep => "exceeded max depth of 10000"
  | .keyWithoutColon => "could not find expected ':'"
  | .entryHere => "block sequence entries are not allowed in this context"
  | .keyHere => "mapping keys are not allowed in this context"
  | .valueHere => "mapping values are not allowed in this context"
  | .unknownDirective => "found unknown directive name"
  | .directiveName => "could not find expected directive name"
  | .directiveBlank => "did not find expected whitespace"
  | .directiveEnd => "did not find expected comment or line break"
  | .versionNumber => "did not find expected version number"
  | .versionPoint => "did not find expected digit or '.' character"
  | .wrongVersion => "found incompatible YAML document"
  | .repeatedVersion => "found duplicate %YAML directive"
  | .repeatedTagHandle => "found duplicate %TAG directive"
  | .tagMark => "did not find expected '!'"
  | .tagText => "did not find expected tag URI"
  | .tagOctet => "did not find URI escaped octet"
  | .tagClose => "did not find the expected '>'"
  | .tagEnd => "did not find expected whitespace or line break"
  | .unknownTagHandle => "found undefined tag handle"
  | .anchorName => "did not find expected alphabetic or numeric character"
  | .unknownAnchor name => s!"unknown anchor '{name}' referenced"
  | .zeroIndent => "found an indentation indicator equal to 0"
  | .tabIndent => "found a tab character that violates indentation"
  | .markerInQuotes => "found unexpected document indicator"
  | .endInQuotes => "found unexpected end of stream"
  | .unknownEscape => "found unknown escape character"
  | .escapeDigits => "did not find expected hexdecimal number"
  | .escapeValue => "found invalid Unicode character escape code"
  | .noDocumentStart => "did not find expected <document start>"
  | .noContent => "did not find expected node content"
  | .noEntry => "did not find expected '-' indicator"
  | .noKey => "did not find expected key"
  | .noListEnd => "did not find expected ',' or ']'"
  | .noMapEnd => "did not find expected ',' or '\x7d'"
  | .outOfFuel => "document is too long"

structure Error where
  problem : Problem
  line : Option Nat
deriving DecidableEq, Repr

namespace Error

def inText (problem : Problem) (line : Nat) : Error :=
  ⟨problem, if line = 0 then none else some (line + 1)⟩

def inOrder (problem : Problem) (line : Nat) : Error :=
  ⟨problem, if line = 0 then none else some line⟩

def text (e : Error) : String :=
  match e.line with
  | some line => s!"yaml: line {line}: {e.problem.text}"
  | none => s!"yaml: {e.problem.text}"

end Error

end SmallLisp.Yaml
