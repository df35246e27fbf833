import SmallLisp.Expr.Text

namespace SmallLisp

inductive Doc where
  /-- A text that is never broken. Only names can head a list that has a rule of its own. -/
  | word (text : String) (isName : Bool)
  | list (items : List Doc)
  | map (entries : List (Doc × Doc))

namespace Doc

open Text (spaced bracketed)

mutual

def flat : Doc → String
  | .word text _ => text
  | .list items => bracketed '(' ')' (spaced (flats items))
  | .map entries => bracketed '{' '}' (spaced (entryFlats entries))

def flats : List Doc → List String
  | [] => []
  | d :: ds => flat d :: flats ds

def entryFlats : List (Doc × Doc) → List String
  | [] => []
  | (k, v) :: es => flat k :: flat v :: entryFlats es

end

def isNamed (name : String) : Doc → Bool
  | .word text isName => isName && text == name
  | _ => false

end Doc

namespace Expr

mutual

/-- Functions look like the lists that make them, and maps are sorted by their spelled keys. -/
def doc : Expr → Doc
  | .nil => .word "nil" false
  | .int v _ => .word (toString v.toInt) false
  | .symbol n _ => .word n true
  | .list xs _ => .list (docs xs)
  | .map es _ => .map ((Text.sortByKey (entryDocs es)).map (·.2))
  | .function x _ b _ _ => .list [.word Special.lambda.name true, .word x true, doc b]
  | .expander x _ b _ _ =>
      .list [.word Primitive.mkMacro.name true,
        .list [.word Special.lambda.name true, .word x true, doc b]]
  | .special k _ => .word k.name true
  | .primitive o _ => .word ("#<primitive " ++ o.name ++ ">") false

def docs : List Expr → List Doc
  | [] => []
  | x :: xs => doc x :: docs xs

def entryDocs : List (Expr × Expr) → List (String × (Doc × Doc))
  | [] => []
  | (k, v) :: es => (text k, (doc k, doc v)) :: entryDocs es

end

theorem docs_eq_map (xs : List Expr) : docs xs = xs.map doc := by
  induction xs with
  | nil => rfl
  | cons x xs ih => simp [docs, ih]

theorem entryDocs_eq_map (es : List (Expr × Expr)) :
    entryDocs es = es.map fun e => (e.1.text, (e.1.doc, e.2.doc)) := by
  induction es with
  | nil => rfl
  | cons e es ih => simp [entryDocs, ih]

end Expr

end SmallLisp
