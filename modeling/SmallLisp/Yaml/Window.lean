/-!
The part of a text that has been brought in. A text comes in portions of a fixed size, and the next
portion comes in when a reader needs more characters than are left. What has been read before goes
then, so that the window starts with the character at hand.
-/
namespace SmallLisp.Yaml

def isAllowed (c : Char) : Bool :=
  let n := c.toNat
  n == 0x09 || n == 0x0A || n == 0x0D || (0x20 ≤ n && n ≤ 0x7E) || n == 0x85 ||
    (0xA0 ≤ n && n ≤ 0xFFFD) || 0x10000 ≤ n

def byteOrderMark : Char := '\uFEFF'

structure Portion where
  size : Nat
  isClean : Bool
deriving DecidableEq, Repr

namespace Portion

def empty : Portion := ⟨0, true⟩

def add (p : Portion) (c : Char) : Portion := ⟨p.size + 1, p.isClean && isAllowed c⟩

def maxBytes : Nat := 512

/-- The portions of a text, of which the first one has been begun and has room for so many bytes. A
character is never cut. -/
def divide (room : Nat) (begun : Portion) : List Char → List Portion
  | [] => [begun]
  | c :: cs =>
      if c.utf8Size ≤ room then divide (room - c.utf8Size) (begun.add c) cs
      else begun :: divide (maxBytes - c.utf8Size) (empty.add c) cs

end Portion

structure Window where
  /-- How many characters are left in it. The end of the text counts as one, each time it comes
  in. -/
  left : Nat
  first : Option Char
  isClean : Bool
  coming : List Portion
deriving DecidableEq, Repr

namespace Window

def closed (coming : List Portion) : Window := ⟨0, none, true, coming⟩

def bringIn (n left : Nat) (isClean : Bool) (first : Option Char) : List Portion → Window
  | [] => ⟨left + 1, first, isClean, []⟩
  | p :: ps =>
      if n ≤ left + p.size then ⟨left + p.size, first, isClean && p.isClean, ps⟩
      else bringIn n (left + p.size) (isClean && p.isClean) first ps

def need (w : Window) (n : Nat) (next : Option Char) : Window :=
  if n ≤ w.left then w else bringIn n w.left w.isClean next w.coming

def pass (w : Window) (n : Nat) : Window := { w with left := w.left - n }

end Window

end SmallLisp.Yaml
