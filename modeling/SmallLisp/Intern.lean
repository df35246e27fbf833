namespace SmallLisp

/-- A number issued by a table. No table has the stamp zero. -/
structure InternId where
  table : UInt32
  index : UInt32
deriving DecidableEq, Repr

namespace InternId

def none : InternId := ⟨0, 0⟩

def isValid (id : InternId) : Bool := id.table ≠ 0

def hash (id : InternId) : UInt32 := (id.index * 2654435761) ^^^ id.table

end InternId

structure InternTable where
  stamp : UInt32
  numbers : List (String × UInt32)
  texts : Array String
deriving Repr

namespace InternTable

def new (stamp : UInt32) : InternTable := ⟨stamp, [], #[]⟩

def size (t : InternTable) : Nat := t.texts.size

def lookup? (t : InternTable) (text : String) : Option InternId :=
  (t.numbers.lookup text).map fun number => ⟨t.stamp, number⟩

def enroll (t : InternTable) (text : String) : InternId × InternTable :=
  match t.lookup? text with
  | some id => (id, t)
  | none =>
      let number := UInt32.ofNat t.size
      (⟨t.stamp, number⟩,
        { t with numbers := (text, number) :: t.numbers, texts := t.texts.push text })

/-- The id of a text, which is given the next number if it has none. Looking up needs no other user of
the table to wait; a text that is missing is looked up once more where nobody else can change the
table. -/
def intern (t : InternTable) (text : String) : InternId × InternTable :=
  match t.lookup? text with
  | some id => (id, t)
  | none => t.enroll text

def resolve? (t : InternTable) (id : InternId) : Option String :=
  if id.table = t.stamp then t.texts[id.index.toNat]? else none

end InternTable

end SmallLisp
