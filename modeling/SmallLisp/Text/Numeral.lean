namespace SmallLisp.Text

def digitValue (c : Char) : Nat :=
  if c.toNat < 58 then c.toNat - 48
  else if c.toNat < 91 then c.toNat - 55
  else c.toNat - 87

def valueOf (base : Nat) (digits : List Char) : Nat :=
  digits.foldl (fun n c => n * base + digitValue c) 0

/-- A hexadecimal numeral starts with `0x` and at least one digit; all others are decimal. -/
def numeralValue : List Char → Nat
  | '0' :: 'x' :: c :: cs => valueOf 16 (c :: cs)
  | cs => valueOf 10 cs

def maxNumeral : Nat := 9223372036854775807

def numeral? (cs : List Char) : Option Int64 :=
  let n := numeralValue cs
  if n ≤ maxNumeral then some (Int64.ofNat n) else none

def wordLimit : Nat := 18446744073709551616

def isHexDigit (c : Char) : Bool :=
  ('0' ≤ c && c ≤ '9') || ('a' ≤ c && c ≤ 'f') || ('A' ≤ c && c ≤ 'F')

def digits? (base : Nat) (cs : List Char) : Option Nat :=
  if cs ≠ [] ∧ cs.all (fun c => isHexDigit c && digitValue c < base) then
    some (valueOf base cs)
  else none

def splitBase : List Char → Nat × List Char
  | '0' :: c :: cs =>
      if c = 'x' ∨ c = 'X' then (16, cs)
      else if c = 'b' ∨ c = 'B' then (2, cs)
      else if c = 'o' ∨ c = 'O' then (8, cs)
      else (8, c :: cs)
  | cs => (10, cs)

def natural? (cs : List Char) : Option Nat :=
  let (base, digits) := splitBase cs
  digits? base digits

end SmallLisp.Text
