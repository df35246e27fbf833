import SmallLisp.Expr.Basic

/-!
When two expressions say the same. Places and captured environments do not count, and the entries of
a map count in any order.
-/
namespace SmallLisp

namespace Expr

mutual

def equal : Expr → Expr → Bool
  | .nil, .nil => true
  | .int v _, .int w _ => v == w
  | .symbol n _, .symbol m _ => n == m
  | .list xs _, .list ys _ => equalLists xs ys
  | .map es _, .map fs _ => es.length == fs.length && within es fs
  | .function x _ b _ _, .function y _ c _ _ => x == y && equal b c
  | .expander x _ b _ _, .expander y _ c _ _ => x == y && equal b c
  | .special k _, .special l _ => k == l
  | .primitive o _, .primitive q _ => o == q
  | _, _ => false

def equalLists : List Expr → List Expr → Bool
  | [], [] => true
  | x :: xs, y :: ys => equal x y && equalLists xs ys
  | _, _ => false

def within : List (Expr × Expr) → List (Expr × Expr) → Bool
  | [], _ => true
  | (k, v) :: es, fs =>
      (match fs.find? fun f => equal k f.1 with
        | some f => equal v f.2
        | none => false) && within es fs

end

end Expr

end SmallLisp
