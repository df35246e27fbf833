import SmallLisp.Form.Basic
import SmallLisp.Text.Quoted

/-!
A full listing of a form, one field to a line. Fields that hold nothing are left out.
-/
namespace SmallLisp

namespace Dump

abbrev Listing := Option (List String)

def indent (lines : List String) : List String := lines.map ("   " ++ ·)

def comma : List String → List String
  | [] => []
  | [l] => [l ++ ","]
  | l :: m :: rest => l :: comma (m :: rest)

def labelled (label : String) : List String → List String
  | [] => []
  | l :: rest => (label ++ ": " ++ l) :: rest

def braces (head : String) (parts : List (List String)) : List String :=
  [head ++ "\x7b"] ++ parts.flatMap (fun part => indent (comma part)) ++ ["\x7d"]

def record (head : String) (fields : List (String × Listing)) : List String :=
  braces head (fields.filterMap fun (label, value) => value.map (labelled label))

def number (n : Int) : Listing :=
  if n = 0 then none else some [toString n]

def string (s : String) : Listing :=
  if s = "" then none else some [Text.quoted s]

def position (p : Position) : Listing :=
  if p = .start then none
  else some (record "source.Position"
    [("Offset", number p.offset), ("Line", number p.line), ("Column", number p.column)])

def span (s : Span) : Listing :=
  if s = ⟨.start, .start⟩ then none
  else some (record "source.Span" [("start", position s.start), ("end", position s.stop)])

def delimiter (d : Delimiter) : Listing :=
  if d = .paren then none else some ["token.Delimiter(" ++ d.text ++ ")"]

def sigil (s : Sigil) : Listing :=
  if s = .ascription then none else some ["token.Prefix(" ++ s.char.toString ++ ")"]

def delimited (d : Delimiter) (s : Span) : Listing :=
  some (record "form.Delimited" [("Kind", delimiter d), ("Span", span s)])

def prefixed (p : Sigil) (s : Span) : Listing :=
  some (record "form.Prefixed" [("Kind", sigil p), ("Span", span s)])

mutual

def form : Form → List String
  | .int value site => record "&form.Int" [("Value", number value.toInt), ("At", span site)]
  | .symbol text site => record "&form.Symbol" [("Text", string text), ("At", span site)]
  | .group kind opener closer children =>
      record "&form.Group" [("Open", delimited kind opener), ("Close", delimited kind closer),
        ("Children", children.head?.map fun _ => braces "[]form.Form" (forms children))]
  | .marked mark site operand =>
      record "&form.Macro" [("Prefix", prefixed (.mark mark) site), ("Value", some (form operand))]
  | .ascription site type value =>
      record "&form.Macro" [("Prefix", prefixed .ascription site), ("Type", some (form type)),
        ("Value", some (form value))]

def forms : List Form → List (List String)
  | [] => []
  | f :: fs => form f :: forms fs

end

end Dump

def Form.dump (f : Form) : String :=
  String.join ((Dump.form f).map (· ++ "\n"))

end SmallLisp
