import SmallLisp.Expr.Bindings
import SmallLisp.Expr.Entries

namespace SmallLisp

namespace Expr

mutual

def bare : Expr → Expr
  | .nil => .nil
  | .int v _ => .int v []
  | .symbol n _ => .symbol n []
  | .list xs _ => .list (bareItems xs) []
  | .map es _ => .map (bareEntries es) []
  | .function x _ b env _ => .function x [] b.bare (bareCaptured env) []
  | .expander x _ b env _ => .expander x [] b.bare (bareCaptured env) []
  | .special k _ => .special k []
  | .primitive o _ => .primitive o []

def bareItems : List Expr → List Expr
  | [] => []
  | x :: xs => x.bare :: bareItems xs

def bareEntries : List (Expr × Expr) → List (Expr × Expr)
  | [] => []
  | (k, v) :: es => (k.bare, v.bare) :: bareEntries es

def bareCaptured : Option (List (String × Expr)) → Option (List (String × Expr))
  | none => none
  | some b => some (bareBindings b)

def bareBindings : List (String × Expr) → List (String × Expr)
  | [] => []
  | (n, v) :: b => (n, v.bare) :: bareBindings b

end

@[simp] theorem bareItems_eq_map (xs : List Expr) : bareItems xs = xs.map bare := by
  induction xs with
  | nil => rfl
  | cons x xs ih => simp [bareItems, ih]

@[simp] theorem bareEntries_eq_map (es : List (Expr × Expr)) :
    bareEntries es = es.map fun e => (e.1.bare, e.2.bare) := by
  induction es with
  | nil => rfl
  | cons e es ih => simp [bareEntries, ih]

@[simp] theorem prov_bare (e : Expr) : e.bare.prov = [] := by
  cases e <;> rfl

@[simp] theorem bare_withProv (e : Expr) (p : Provenance) : (e.withProv p).bare = e.bare := by
  cases e <;> rfl

theorem withProv_bare (e : Expr) : e.bare.withProv [] = e.bare := by
  cases e <;> rfl

mutual

theorem equal_bare (a b : Expr) : a.bare.equal b.bare = a.equal b := by
  match a with
  | .nil => cases b <;> simp [bare, equal]
  | .int v p => cases b <;> simp [bare, equal]
  | .symbol n p => cases b <;> simp [bare, equal]
  | .special k p => cases b <;> simp [bare, equal]
  | .primitive o p => cases b <;> simp [bare, equal]
  | .list xs p =>
      cases b with
      | list ys q => simpa [bare, equal] using equalLists_bare xs ys
      | _ => simp [bare, equal]
  | .map es p =>
      cases b with
      | map fs q => simpa [bare, equal] using congrArg _ (within_bare es fs)
      | _ => simp [bare, equal]
  | .function x xp c env p =>
      cases b with
      | function y yp d env' q => simp [bare, equal, equal_bare c d]
      | _ => simp [bare, equal]
  | .expander x xp c env p =>
      cases b with
      | expander y yp d env' q => simp [bare, equal, equal_bare c d]
      | _ => simp [bare, equal]

theorem equalLists_bare (xs ys : List Expr) :
    equalLists (xs.map bare) (ys.map bare) = equalLists xs ys := by
  match xs, ys with
  | [], [] => rfl
  | [], _ :: _ => rfl
  | _ :: _, [] => rfl
  | x :: xs, y :: ys => simp [equalLists, equal_bare x y, equalLists_bare xs ys]

theorem within_bare (es fs : List (Expr × Expr)) :
    within (es.map fun e => (e.1.bare, e.2.bare)) (fs.map fun e => (e.1.bare, e.2.bare)) =
      within es fs := by
  match es with
  | [] => rfl
  | (k, v) :: es =>
      have hk (f : Expr × Expr) : k.bare.equal f.1.bare = k.equal f.1 := equal_bare k f.1
      have hv (f : Expr × Expr) : v.bare.equal f.2.bare = v.equal f.2 := equal_bare v f.2
      simp only [List.map_cons, within, List.find?_map, Function.comp_def, hk, within_bare es fs]
      cases fs.find? fun f => k.equal f.1 with
      | none => rfl
      | some f => simp [hv f]

end

end Expr

namespace Entries

def bare (es : Entries) : Entries := es.map fun e => (e.1.bare, e.2.bare)

theorem bare_set (key value : Expr) (es : Entries) :
    (es.set key value).bare = es.bare.set key.bare value.bare := by
  induction es with
  | nil => rfl
  | cons e es ih =>
      simp only [set, bare, List.map_cons, Expr.equal_bare]
      split
      · rfl
      · exact congrArg _ ih

theorem bare_setAll (es : Entries) (values : List Expr) :
    (es.setAll values).bare = es.bare.setAll (values.map Expr.bare) := by
  match values with
  | [] => rfl
  | [_] => rfl
  | k :: v :: rest =>
      simp only [setAll, List.map_cons]
      rw [bare_setAll (es.set k v) rest, bare_set]

end Entries

namespace Bindings

def bare (b : Bindings) : Bindings := Expr.bareBindings b

@[simp] theorem bareCaptured_eq_map (env : Option Bindings) :
    Expr.bareCaptured env = env.map bare := by
  cases env <;> rfl

theorem bare_cons (name : String) (value : Expr) (b : Bindings) :
    bare ((name, value) :: b) = (name, value.bare) :: b.bare := rfl

theorem get?_bare (b : Bindings) (name : String) :
    b.bare.get? name = (b.get? name).map Expr.bare := by
  induction b with
  | nil => rfl
  | cons e b ih =>
      obtain ⟨n, v⟩ := e
      rw [bare_cons, get?_cons, get?_cons]
      by_cases hn : name = n
      · simp [hn]
      · simp [hn, ih]

theorem bare_set (name : String) (value : Expr) (b : Bindings) :
    (b.set name value).bare = b.bare.set name value.bare := by
  induction b with
  | nil => rfl
  | cons e b ih =>
      obtain ⟨n, v⟩ := e
      simp only [set, bare_cons]
      split
      · rfl
      · exact congrArg _ ih

end Bindings

end SmallLisp
