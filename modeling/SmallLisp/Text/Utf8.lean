import SmallLisp.Text.Quoted

/-!
Decoding bytes into characters. Every byte that is no part of a well-formed sequence becomes one
replacement character, so that decoding never fails and never loses its place.
-/
namespace SmallLisp.Text

def isContinuation (b : UInt8) : Bool :=
  0x80 ≤ b && b < 0xC0

def assemble (lead : Nat) (continuation : List UInt8) : Nat :=
  continuation.foldl (fun n b => n * 64 + b.toNat % 64) lead

def sequence? (lead size least : Nat) (bytes : List UInt8) : Option (Char × Nat) :=
  let continuation := bytes.take size
  let code := assemble lead continuation
  if continuation.length = size ∧ continuation.all isContinuation ∧ least ≤ code then
    if h : code.isValidChar then some (Char.ofNatAux code h, size) else none
  else none

def firstChar (b : UInt8) (bytes : List UInt8) : Char × Nat :=
  let n := b.toNat
  let found :=
    if n < 0x80 then some (Char.ofNat n, 0)
    else if n < 0xC0 then none
    else if n < 0xE0 then sequence? (n % 32) 1 0x80 bytes
    else if n < 0xF0 then sequence? (n % 16) 2 0x800 bytes
    else if n < 0xF8 then sequence? (n % 8) 3 0x10000 bytes
    else none
  found.getD (replacement, 0)

def decodeFrom : Nat → List UInt8 → List Char
  | _, [] => []
  | skip + 1, _ :: bytes => decodeFrom skip bytes
  | 0, b :: bytes =>
      let (c, size) := firstChar b bytes
      c :: decodeFrom size bytes

def decode (bytes : List UInt8) : List Char :=
  decodeFrom 0 bytes

end SmallLisp.Text
