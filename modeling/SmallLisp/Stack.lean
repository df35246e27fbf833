namespace SmallLisp

abbrev Stack (α : Type) := List α

namespace Stack

variable {α : Type}

def empty : Stack α := []

def push (s : Stack α) (a : α) : Stack α := a :: s

def pop? : Stack α → Option (α × Stack α)
  | [] => none
  | a :: s => some (a, s)

def top? (s : Stack α) : Option α := s.head?

def bottomUp (s : Stack α) : List α := s.reverse

def takeAll (s : Stack α) : List α × Stack α := (s.bottomUp, empty)

@[simp] theorem pop?_push (s : Stack α) (a : α) : (s.push a).pop? = some (a, s) := rfl

@[simp] theorem top?_push (s : Stack α) (a : α) : (s.push a).top? = some a := rfl

@[simp] theorem bottomUp_empty : (empty : Stack α).bottomUp = [] := rfl

@[simp] theorem bottomUp_push (s : Stack α) (a : α) : (s.push a).bottomUp = s.bottomUp ++ [a] := by
  simp [push, bottomUp]

theorem pop?_eq_none_iff (s : Stack α) : s.pop? = none ↔ s = empty := by
  cases s <;> simp [pop?, empty]

end Stack

end SmallLisp
