import SmallLisp.Expr.Basic

namespace SmallLisp

namespace Bindings

def get? (b : Bindings) (name : String) : Option Expr := b.lookup name

def set (name : String) (value : Expr) : Bindings → Bindings
  | [] => [(name, value)]
  | e :: es => if e.1 = name then (name, value) :: es else e :: set name value es

def names (b : Bindings) : List String :=
  (b.map (·.1)).eraseDups.mergeSort fun m n => m ≤ n

theorem get?_cons (b : Bindings) (entry : String × Expr) (name : String) :
    get? (entry :: b) name = if name = entry.1 then some entry.2 else b.get? name := by
  unfold get?
  rw [List.lookup_cons]
  by_cases h : name = entry.1
  · simp [h]
  · have hb : (name == entry.1) = false := by simpa using h
    simp [h, hb]

theorem get?_set (b : Bindings) (name other : String) (value : Expr) :
    (b.set name value).get? other = if other = name then some value else b.get? other := by
  induction b with
  | nil => simp [set, get?_cons]
  | cons e es ih =>
      by_cases hn : e.1 = name
      · by_cases ho : other = name <;> simp [set, get?_cons, hn, ho]
      · by_cases ho : other = name
        · subst ho
          have hne : other ≠ e.1 := fun h => hn h.symm
          simp [set, get?_cons, hn, ih, hne]
        · simp [set, get?_cons, hn, ih, ho]

end Bindings

end SmallLisp
