import SmallLisp.Yaml.Meaning

namespace SmallLisp

open Yaml (Node Scalar)

structure Settings where
  preludeFiles : List String
  closures : Bool
  maxDepth : Nat
  width : Nat
  history : String
  verbose : Bool
  bare : Bool
deriving DecidableEq, Repr

inductive SettingsError.Cause where
  | unknownKey (key : String)
  | repeatedKey (key : String)
  | wrongType (found expected : String)
deriving DecidableEq, Repr

structure SettingsError where
  line : Nat
  cause : SettingsError.Cause
deriving DecidableEq, Repr

def SettingsError.text (e : SettingsError) : String :=
  match e.cause with
  | .unknownKey key => s!"line {e.line}: field {key} not found in type cmd.Config"
  | .repeatedKey key => s!"line {e.line}: field {key} already set in type cmd.Config"
  | .wrongType found expected => s!"line {e.line}: cannot unmarshal {found} into {expected}"

inductive SettingsFault where
  | badTag (s : Scalar)
  | cycle
  | badMerge
deriving DecidableEq, Repr

def SettingsFault.text : SettingsFault → String
  | .badTag s => "yaml: " ++ s.tagComplaint
  | .cycle => "yaml: anchor value contains itself"
  | .badMerge => "yaml: map merge requires map or sequence of maps as the value"

abbrev DecodeM := StateT (List SettingsError) (Except SettingsFault)

namespace DecodeM

def report {α : Type} (line : Nat) (cause : SettingsError.Cause) : DecodeM (Option α) := do
  modify (· ++ [⟨line + 1, cause⟩])
  pure none

def wrongType {α : Type} (line : Nat) (found expected : String) : DecodeM (Option α) :=
  report line (.wrongType found expected)

def scalar {α : Type} (expected : String) (use : Yaml.Meaning → Option α) (s : Scalar)
    (line : Nat) : DecodeM (Option α) :=
  match s.meaning? with
  | none => throw (.badTag s)
  | some meaning =>
      match use meaning with
      | some value => pure (some value)
      | none => wrongType line s.described expected

def ofScalar {α : Type} (expected : String) (decode : Scalar → Nat → DecodeM (Option α)) :
    Node → DecodeM (Option α)
  | .scalar s line => decode s line
  | .list _ line => wrongType line "!!seq" expected
  | .map _ line => wrongType line "!!map" expected
  | .reference (some target) _ => ofScalar expected decode target
  | .reference none _ => throw .cycle

def bool : Node → DecodeM (Option Bool) :=
  ofScalar "bool" (scalar "bool" fun
    | .absent => some false
    | .truth b => some b
    | _ => none)

def nat : Node → DecodeM (Option Nat) :=
  ofScalar "uint" (scalar "uint" fun
    | .absent => some 0
    | .whole n => if 0 ≤ n then some n.toNat else none
    | .fraction word => word
    | _ => none)

def string : Node → DecodeM (Option String) :=
  ofScalar "string" fun s => scalar "string" (fun
    | .absent => some ""
    | .text content => some content
    | _ => some s.text) s

def stringItems : List Node → DecodeM (List String)
  | [] => pure []
  | item :: items => do
      let text ← string item
      let texts ← stringItems items
      pure (text.toList ++ texts)

def strings : Node → DecodeM (Option (List String))
  | .scalar s line => scalar "[]string" (fun m => if m = .absent then some [] else none) s line
  | .list items _ => do pure (some (← stringItems items))
  | .map _ line => wrongType line "!!map" "[]string"
  | .reference (some target) _ => strings target
  | .reference none _ => throw .cycle

end DecodeM

namespace Settings

def defaultHistory : String := ".lisp_history"

def default : Settings := ⟨[], false, 0, 0, defaultHistory, false, false⟩

def empty : Settings := ⟨[], false, 0, 0, "", false, false⟩

def keys : List String := ["prelude", "closures", "max_depth", "width", "history", "verbose"]

def setKey (s : Settings) (key : String) (value : Node) : DecodeM Settings := do
  match key with
  | "prelude" =>
      pure ((← DecodeM.strings value).elim s fun v => { s with preludeFiles := v })
  | "closures" => pure ((← DecodeM.bool value).elim s fun v => { s with closures := v })
  | "max_depth" => pure ((← DecodeM.nat value).elim s fun v => { s with maxDepth := v })
  | "width" => pure ((← DecodeM.nat value).elim s fun v => { s with width := v })
  | "history" => pure ((← DecodeM.string value).elim s fun v => { s with history := v })
  | "verbose" => pure ((← DecodeM.bool value).elim s fun v => { s with verbose := v })
  | _ => pure s

def isMergeKey : Node → Bool
  | .scalar s _ => s.isMerge
  | _ => false

def lineOf : Node → Nat
  | .scalar _ line => line
  | .list _ line => line
  | .map _ line => line
  | .reference _ line => line

def isMap : Node → Bool
  | .map _ _ => true
  | .reference (some (.map _ _)) _ => true
  | .reference none _ => true
  | _ => false

mutual

def decode (s : Settings) : Node → DecodeM Settings
  | .scalar scalar line => do
      match scalar.meaning? with
      | none => throw (.badTag scalar)
      | some .absent => pure empty
      | some _ =>
          let _ : Option Unit ← DecodeM.wrongType line scalar.described "cmd.Config"
          pure s
  | .list _ line => do
      let _ : Option Unit ← DecodeM.wrongType line "!!seq" "cmd.Config"
      pure s
  | .map entries _ => decodeEntries s [] entries
  | .reference (some target) _ => decode s target
  | .reference none _ => throw .cycle

/-- The settings after the entries of a map. A key may be set once. -/
def decodeEntries (s : Settings) (seen : List String) : List (Node × Node) → DecodeM Settings
  | [] => pure s
  | (key, value) :: entries => do
      if isMergeKey key then
        let s ← merge s value
        decodeEntries s seen entries
      else
        match ← DecodeM.string key with
        | none => decodeEntries s seen entries
        | some name =>
            if !keys.contains name then
              let _ : Option Unit ← DecodeM.report (lineOf key) (.unknownKey name)
              decodeEntries s seen entries
            else if seen.contains name then
              let _ : Option Unit ← DecodeM.report (lineOf key) (.repeatedKey name)
              decodeEntries s seen entries
            else
              let s ← s.setKey name value
              decodeEntries s (name :: seen) entries

/-- The settings after a map, or a list of maps, of which the first counts most. -/
def merge (s : Settings) : Node → DecodeM Settings
  | .map entries _ => decodeEntries s [] entries
  | .list items _ => mergeItems s items
  | .reference (some target) _ => if isMap target then decode s target else throw .badMerge
  | .reference none _ => throw .cycle
  | .scalar _ _ => throw .badMerge

def mergeItems (s : Settings) : List Node → DecodeM Settings
  | [] => pure s
  | item :: items => do
      let s ← mergeItems s items
      if isMap item then decode s item else throw .badMerge

end

def parse (s : Settings) (text : List Char) : Except String Settings :=
  match Node.parse text with
  | .error e => .error e.text
  | .ok none => .ok s
  | .ok (some node) =>
      match (s.decode node).run [] with
      | .error fault => .error fault.text
      | .ok (s', []) => .ok s'
      | .ok (_, errors) =>
          .error ("yaml: unmarshal errors:" ++ String.join (errors.map fun e => "\n  " ++ e.text))

end Settings

end SmallLisp
