import SmallLisp.Text.Numeral

namespace SmallLisp.Yaml.Moment

def number? : List Char → Option (Nat × List Char)
  | a :: b :: rest =>
      if !a.isDigit then none
      else if b.isDigit then some (Text.valueOf 10 [a, b], rest)
      else some (Text.valueOf 10 [a], b :: rest)
  | [a] => if a.isDigit then some (Text.valueOf 10 [a], []) else none
  | [] => none

def behind? (c : Char) : List Char → Option (List Char)
  | d :: rest => if c = d then some rest else none
  | [] => none

def isLeap (year : Nat) : Bool := year % 4 == 0 && (year % 100 != 0 || year % 400 == 0)

def daysIn (year month : Nat) : Nat :=
  if month = 2 then (if isLeap year then 29 else 28)
  else if [4, 6, 9, 11].contains month then 30
  else 31

def date? (cs : List Char) : Option (List Char) := do
  let year := cs.takeWhile Char.isDigit
  if year.length ≠ 4 then none
  else
    let (month, rest) ← number? (← behind? '-' (cs.drop 4))
    let (day, rest) ← number? (← behind? '-' rest)
    if 1 ≤ month ∧ month ≤ 12 ∧ 1 ≤ day ∧ day ≤ daysIn (Text.valueOf 10 year) month then
      some rest
    else none

def skipFraction : List Char → List Char
  | c :: d :: rest =>
      if (c = '.' ∨ c = ',') ∧ d.isDigit then rest.dropWhile Char.isDigit else c :: d :: rest
  | cs => cs

def time? (cs : List Char) : Option (List Char) := do
  let (hour, rest) ← number? cs
  let (minute, rest) ← number? (← behind? ':' rest)
  let (second, rest) ← number? (← behind? ':' rest)
  if hour < 24 ∧ minute < 60 ∧ second < 60 then some (skipFraction rest) else none

def isZone : List Char → Bool
  | ['Z'] => true
  | [sign, a, b, ':', c, d] =>
      (sign = '+' || sign = '-') && [a, b, c, d].all Char.isDigit &&
        decide (Text.valueOf 10 [a, b] ≤ 24) && decide (Text.valueOf 10 [c, d] ≤ 60)
  | _ => false

def fits (cs : List Char) : Bool :=
  match date? cs with
  | none => false
  | some [] => true
  | some (c :: rest) =>
      if c = 'T' || c = 't' then (time? rest).any isZone
      else c = ' ' && (time? (rest.dropWhile (· = ' '))).any (·.isEmpty)

end SmallLisp.Yaml.Moment
