import SmallLisp.Expr.Basic
import SmallLisp.Text.Spaced

namespace SmallLisp

namespace Text

def bracketed (opening closing : Char) (inner : String) : String :=
  opening.toString ++ inner ++ closing.toString

/-- Pairs in the order of their first texts; pairs with the same first text stay as they are. -/
def sortByKey {α : Type} (pairs : List (String × α)) : List (String × α) :=
  pairs.mergeSort fun a b => a.1 ≤ b.1

end Text

namespace Expr

open Text (spaced bracketed sortByKey)

mutual

def text : Expr → String
  | .nil => "nil"
  | .int v _ => toString v.toInt
  | .symbol n _ => n
  | .list xs _ => bracketed '(' ')' (spaced (texts xs))
  | .map es _ =>
      bracketed '{' '}' (spaced ((sortByKey (entryTexts es)).flatMap fun e => [e.1, e.2]))
  | .function x _ b _ _ => bracketed '(' ')' (spaced [Special.lambda.name, x, text b])
  | .expander x _ b _ _ =>
      bracketed '(' ')' (spaced [Primitive.mkMacro.name,
        bracketed '(' ')' (spaced [Special.lambda.name, x, text b])])
  | .special k _ => k.name
  | .primitive o _ => "#<primitive " ++ o.name ++ ">"

def texts : List Expr → List String
  | [] => []
  | x :: xs => text x :: texts xs

def entryTexts : List (Expr × Expr) → List (String × String)
  | [] => []
  | (k, v) :: es => (text k, text v) :: entryTexts es

end

theorem texts_eq_map (xs : List Expr) : texts xs = xs.map text := by
  induction xs with
  | nil => rfl
  | cons x xs ih => simp [texts, ih]

theorem entryTexts_eq_map (es : List (Expr × Expr)) :
    entryTexts es = es.map fun e => (e.1.text, e.2.text) := by
  induction es with
  | nil => rfl
  | cons e es ih => simp [entryTexts, ih]

def sortEntries (entries : List (Expr × Expr)) : List (Expr × Expr) :=
  entries.mergeSort fun a b => a.1.text ≤ b.1.text

end Expr

end SmallLisp
