import SmallLisp.Text.Printable

/-!
Quoted characters and texts, as they appear in messages: printable characters stand for
themselves, the others are escaped.
-/
namespace SmallLisp.Text

def hexadecimal (width n : Nat) : String :=
  let digits := Nat.toDigits 16 n
  String.ofList (List.replicate (width - digits.length) '0' ++ digits)

def escape (mark c : Char) : String :=
  if c = mark ∨ c = '\\' then String.ofList ['\\', c]
  else if isPrintable c then c.toString
  else match c.toNat with
    | 0x07 => "\\a"
    | 0x08 => "\\b"
    | 0x09 => "\\t"
    | 0x0A => "\\n"
    | 0x0B => "\\v"
    | 0x0C => "\\f"
    | 0x0D => "\\r"
    | n =>
      if n < 0x80 then "\\x" ++ hexadecimal 2 n
      else if n < 0x10000 then "\\u" ++ hexadecimal 4 n
      else "\\U" ++ hexadecimal 8 n

def replacement : Char := '\uFFFD'

def charOfCode (code : Int) : Char :=
  if h : 0 ≤ code ∧ code.toNat.isValidChar then Char.ofNatAux code.toNat h.2 else replacement

def quotedChar (code : Int) : String :=
  "'" ++ escape '\'' (charOfCode code) ++ "'"

def quoted (text : String) : String :=
  "\"" ++ String.join (text.toList.map (escape '"')) ++ "\""

end SmallLisp.Text
