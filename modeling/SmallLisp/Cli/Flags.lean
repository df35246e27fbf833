import SmallLisp.Text.Numeral

/-!
The flags of a command line. Switches may stand alone; the other flags take a value, which stands
behind an equals sign or in the next argument. Flags and other arguments may be mixed; two dashes
end the flags.
-/
namespace SmallLisp.Cli

inductive FlagKind where
  | switch | number | text
deriving DecidableEq, Repr

structure FlagSpec where
  name : String
  kind : FlagKind
  short : Option Char
deriving DecidableEq, Repr

inductive FlagValue where
  | switch (b : Bool)
  | number (n : Nat)
  | text (s : String)
deriving DecidableEq, Repr

/-- Flags and their values, the one given last first. -/
abbrev Flags := List (String × FlagValue)

namespace Flags

def switch? (flags : Flags) (name : String) : Option Bool :=
  match flags.lookup name with
  | some (.switch b) => some b
  | _ => none

def number? (flags : Flags) (name : String) : Option Nat :=
  match flags.lookup name with
  | some (.number n) => some n
  | _ => none

def text? (flags : Flags) (name : String) : Option String :=
  match flags.lookup name with
  | some (.text s) => some s
  | _ => none

end Flags

def commonFlags : List FlagSpec :=
  [⟨"verbose", .switch, some 'v'⟩, ⟨"config", .text, none⟩, ⟨"closures", .switch, none⟩,
    ⟨"max-depth", .number, none⟩, ⟨"width", .number, none⟩, ⟨"no-prelude", .switch, none⟩]

def boolWord? (s : String) : Option Bool :=
  if ["1", "t", "T", "TRUE", "true", "True"].contains s then some true
  else if ["0", "f", "F", "FALSE", "false", "False"].contains s then some false
  else none

def underscoresFit : Bool → List Char → Bool
  | _, [] => true
  | digitBefore, '_' :: cs =>
      digitBefore && (match cs with | c :: _ => c ≠ '_' | [] => false) && underscoresFit false cs
  | _, _ :: cs => underscoresFit true cs

def numberWord? (s : String) : Option Nat :=
  let (base, digits) := Text.splitBase s.toList
  if underscoresFit (base ≠ 10) digits then
    match Text.digits? base (digits.filter (· ≠ '_')) with
    | some n => if n < Text.wordLimit then some n else none
    | none => none
  else none

namespace FlagSpec

def value? (spec : FlagSpec) (s : String) : Option FlagValue :=
  match spec.kind with
  | .switch => (boolWord? s).map .switch
  | .number => (numberWord? s).map .number
  | .text => some (.text s)

end FlagSpec

def findFlag? (specs : List FlagSpec) (name : String) : Option FlagSpec :=
  specs.find? (·.name = name)

def findShort? (specs : List FlagSpec) (c : Char) : Option FlagSpec :=
  specs.find? (·.short = some c)

def testMark : List Char := "test.".toList

def shorts? (specs : List FlagSpec) : List Char → Option Flags
  | [] => some []
  | c :: cs =>
      if testMark.isPrefixOf (c :: cs) then some []
      else match findShort? specs c, cs with
      | none, _ => none
      | some spec, '=' :: d :: rest =>
          (spec.value? (String.ofList (d :: rest))).map fun v => [(spec.name, v)]
      | some spec, cs =>
          match spec.value? "true", shorts? specs cs with
          | some v, some flags => some (flags ++ [(spec.name, v)])
          | _, _ => none

def splitValue (cs : List Char) : String × Option String :=
  let name := String.ofList (cs.takeWhile (· ≠ '='))
  match cs.dropWhile (· ≠ '=') with
  | [] => (name, none)
  | _ :: rest => (name, some (String.ofList rest))

def parseFlags? (specs : List FlagSpec) : List String → Option (Flags × List String)
  | [] => some ([], [])
  | arg :: rest =>
      let add (flags : Flags) (parsed : Option (Flags × List String)) :
          Option (Flags × List String) :=
        parsed.map fun (more, args) => (more ++ flags, args)
      match arg.toList with
      | ['-', '-'] => some ([], rest)
      | '-' :: '-' :: cs =>
          let (name, value) := splitValue cs
          match findFlag? specs name, value, rest with
          | none, _, _ => none
          | some spec, some value, rest =>
              (spec.value? value).bind fun v => add [(name, v)] (parseFlags? specs rest)
          | some spec, none, [] =>
              if spec.kind = .switch then some ([(name, .switch true)], []) else none
          | some spec, none, next :: rest' =>
              if spec.kind = .switch then
                add [(name, .switch true)] (parseFlags? specs (next :: rest'))
              else (spec.value? next).bind fun v => add [(name, v)] (parseFlags? specs rest')
      | '-' :: c :: cs =>
          (shorts? specs (c :: cs)).bind fun flags => add flags (parseFlags? specs rest)
      | _ => (parseFlags? specs rest).map fun (flags, args) => (flags, arg :: args)

def takesNext (specs : List FlagSpec) (arg : String) : Bool :=
  match arg.toList with
  | '-' :: '-' :: cs =>
      !cs.contains '=' && (findFlag? specs (String.ofList cs)).all (·.kind ≠ .switch)
  | ['-', c] => c ≠ '=' && (findShort? specs c).all (·.kind ≠ .switch)
  | _ => false

def looksLikeFlag (arg : String) : Bool := arg.toList.head? = some '-'

def firstWord? (specs : List FlagSpec) : List String → Option String
  | [] => none
  | arg :: rest =>
      if arg = "--" then none
      else if takesNext specs arg then
        match rest with
        | _ :: next :: more => firstWord? specs (next :: more)
        | _ => none
      else if arg ≠ "" ∧ !looksLikeFlag arg then some arg
      else firstWord? specs rest

def withoutWord (specs : List FlagSpec) (word : String) : List String → List String
  | [] => []
  | arg :: rest =>
      if arg = "--" then arg :: rest
      else if takesNext specs arg then
        match rest with
        | value :: more => arg :: value :: withoutWord specs word more
        | [] => [arg]
      else if arg = word then rest
      else arg :: withoutWord specs word rest

end SmallLisp.Cli
