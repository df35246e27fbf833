/-!
Bytes written with 64 digits, six bits each. Four digits stand for three bytes; equals signs fill up
the last four.
-/
namespace SmallLisp.Text.Base64

def digit? (c : Char) : Option Nat :=
  if c.isUpper then some (c.toNat - 'A'.toNat)
  else if c.isLower then some (c.toNat - 'a'.toNat + 26)
  else if c.isDigit then some (c.toNat - '0'.toNat + 52)
  else if c = '+' then some 62
  else if c = '/' then some 63
  else none

def group? (a b c d : Char) : Option Nat := do
  let digits ← [a, b, c, d].mapM digit?
  pure (digits.foldl (fun n v => n * 64 + v) 0)

def bytesOf (n : Nat) : List UInt8 :=
  [UInt8.ofNat (n / 65536), UInt8.ofNat (n / 256), UInt8.ofNat n]

def decodeDigits? : List Char → Option (List UInt8)
  | [] => some []
  | [a, b, '=', '='] => (group? a b 'A' 'A').map fun n => (bytesOf n).take 1
  | [a, b, c, '='] => (group? a b c 'A').map fun n => (bytesOf n).take 2
  | a :: b :: c :: d :: rest => do
      let n ← group? a b c d
      let bytes ← decodeDigits? rest
      pure (bytesOf n ++ bytes)
  | _ => none

def decode? (cs : List Char) : Option (List UInt8) :=
  decodeDigits? (cs.filter fun c => c ≠ '\r' ∧ c ≠ '\n')

end SmallLisp.Text.Base64
