/-!
Patterns over characters. A pattern looks at the start of a text and says how many characters it
takes there; zero says that it does not match.
-/
namespace SmallLisp

inductive Pattern where
  | all (ps : List Pattern)
  | any (ps : List Pattern)
  | seq (ps : List Pattern)
  | many (p : Pattern)
  | literal (cs : List Char)
  | within (lowest highest : Char)
  | satisfy (test : Char → Bool)
  /-- The end of the text, which counts as one character. -/
  | eof

instance : Inhabited Pattern := ⟨.eof⟩

namespace Pattern

def repeatWidth (width : List Char → Nat) : Nat → List Char → Nat
  | _, [] => 0
  | skip + 1, _ :: cs => repeatWidth width skip cs + 1
  | 0, c :: cs =>
      match width (c :: cs) with
      | 0 => 0
      | n + 1 => repeatWidth width n cs + 1

mutual

def width : Pattern → List Char → Nat
  | .all ps, cs => allWidth ps cs 0
  | .any ps, cs => anyWidth ps cs
  | .seq ps, cs => seqWidth ps cs 0
  | .many p, cs => repeatWidth p.width 0 cs
  | .literal ds, cs => if ds.isPrefixOf cs then ds.length else 0
  | .within _ _, [] => 0
  | .within lowest highest, c :: _ => if lowest ≤ c ∧ c ≤ highest then 1 else 0
  | .satisfy _, [] => 0
  | .satisfy test, c :: _ => if test c then 1 else 0
  | .eof, [] => 1
  | .eof, _ :: _ => 0

def allWidth : List Pattern → List Char → Nat → Nat
  | [], _, longest => longest
  | p :: ps, cs, longest =>
      match p.width cs with
      | 0 => 0
      | n + 1 => allWidth ps cs (max longest (n + 1))

def anyWidth : List Pattern → List Char → Nat
  | [], _ => 0
  | p :: ps, cs =>
      match p.width cs with
      | 0 => anyWidth ps cs
      | n + 1 => n + 1

def seqWidth : List Pattern → List Char → Nat → Nat
  | [], _, taken => taken
  | _ :: _, [], _ => 0
  | p :: ps, c :: cs, taken =>
      match p.width (c :: cs) with
      | 0 => 0
      | n + 1 => seqWidth ps ((c :: cs).drop (n + 1)) (taken + (n + 1))

end

end Pattern

end SmallLisp
