namespace SmallLisp.Text

def spaced : List String → String
  | [] => ""
  | [s] => s
  | s :: t :: rest => s ++ " " ++ spaced (t :: rest)

@[simp] theorem spaced_nil : spaced [] = "" := rfl

@[simp] theorem spaced_singleton (s : String) : spaced [s] = s := rfl

@[simp] theorem spaced_cons_cons (s t : String) (rest : List String) :
    spaced (s :: t :: rest) = s ++ " " ++ spaced (t :: rest) := rfl

end SmallLisp.Text
