import SmallLisp.Expr.Basic

namespace SmallLisp

namespace Hash

def mix (h v : UInt32) : UInt32 := (h ^^^ v) * 16777619

def ofBytes (bytes : List UInt8) : UInt32 :=
  bytes.foldl (fun h b => mix h b.toUInt32) 2166136261

def ofWord (v : Int64) : UInt32 :=
  v.toUInt64.toUInt32 ^^^ (v.toUInt64 >>> 32).toUInt32

end Hash

namespace Expr

open Hash

mutual

def hash (nameHash : String → UInt32) : Expr → UInt32
  | .nil => 0
  | .int v _ => mix 1 (ofWord v)
  | .symbol n _ => mix 2 (nameHash n)
  | .special k _ => mix 3 (UInt32.ofNat k.code)
  | .primitive o _ => mix 4 (ofBytes o.name.toUTF8.toList)
  | .function x _ b _ _ => mix (mix 5 (nameHash x)) (hash nameHash b)
  | .expander x _ b _ _ => mix (mix 6 (nameHash x)) (hash nameHash b)
  | .list xs _ => hashList nameHash 7 xs
  | .map es _ => mix 8 (hashEntries nameHash es)

def hashList (nameHash : String → UInt32) (h : UInt32) : List Expr → UInt32
  | [] => h
  | x :: xs => hashList nameHash (mix h (hash nameHash x)) xs

def hashEntries (nameHash : String → UInt32) : List (Expr × Expr) → UInt32
  | [] => 0
  | (k, v) :: es => mix (hash nameHash k) (hash nameHash v) + hashEntries nameHash es

end

mutual

def hasNames : Expr → Bool
  | .symbol _ _ => true
  | .function _ _ _ _ _ => true
  | .expander _ _ _ _ _ => true
  | .list xs _ => anyNames xs
  | .map es _ => anyEntryNames es
  | _ => false

def anyNames : List Expr → Bool
  | [] => false
  | x :: xs => hasNames x || anyNames xs

def anyEntryNames : List (Expr × Expr) → Bool
  | [] => false
  | (k, v) :: es => hasNames k || hasNames v || anyEntryNames es

end

end Expr

end SmallLisp
