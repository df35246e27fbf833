import SmallLisp.Expr.Equal

namespace SmallLisp

abbrev Entries := List (Expr × Expr)

namespace Entries

def get? (entries : Entries) (key : Expr) : Option Expr :=
  (entries.find? fun e => e.1.equal key).map (·.2)

/-- Sets a key. An equal key is replaced in its place, together with its value; otherwise the entry
goes to the end. -/
def set (key value : Expr) : Entries → Entries
  | [] => [(key, value)]
  | e :: es => if e.1.equal key then (key, value) :: es else e :: set key value es

def erase (entries : Entries) (key : Expr) : Entries :=
  entries.eraseP fun e => e.1.equal key

def setAll (entries : Entries) : List Expr → Entries
  | k :: v :: rest => setAll (entries.set k v) rest
  | _ => entries

end Entries

end SmallLisp
