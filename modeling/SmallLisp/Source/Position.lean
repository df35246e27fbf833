/-!
Positions in a text and the spans between them. All components count characters from zero; what is
shown to a reader counts from one.
-/
namespace SmallLisp

def signedWord (n : Int) : Int := n.bmod 18446744073709551616

structure Position where
  offset : Int
  line : Int
  column : Int
deriving DecidableEq, Repr

namespace Position

def start : Position := ⟨0, 0, 0⟩

def step (p : Position) (c : Char) : Position :=
  if c = '\n' then ⟨p.offset + 1, p.line + 1, 0⟩ else ⟨p.offset + 1, p.line, p.column + 1⟩

def advance (p : Position) (text : List Char) : Position :=
  text.foldl step p

def advanceColumns (p : Position) (n : Int) : Position :=
  ⟨p.offset + n, p.line, p.column + n⟩

@[simp] theorem advance_nil (p : Position) : p.advance [] = p := rfl

@[simp] theorem advance_cons (p : Position) (c : Char) (cs : List Char) :
    p.advance (c :: cs) = (p.step c).advance cs := rfl

theorem advance_append (p : Position) (cs ds : List Char) :
    p.advance (cs ++ ds) = (p.advance cs).advance ds := by
  simp [advance, List.foldl_append]

@[simp] theorem step_offset (p : Position) (c : Char) : (p.step c).offset = p.offset + 1 := by
  unfold step
  split <;> rfl

theorem advance_offset (p : Position) (cs : List Char) :
    (p.advance cs).offset = p.offset + cs.length := by
  induction cs generalizing p with
  | nil => simp
  | cons c cs ih =>
      simp only [advance_cons, ih, step_offset, List.length_cons]
      omega

theorem advance_eq_advanceColumns (p : Position) (cs : List Char) (h : '\n' ∉ cs) :
    p.advance cs = p.advanceColumns cs.length := by
  induction cs generalizing p with
  | nil => simp [advanceColumns]
  | cons c cs ih =>
      have hc : c ≠ '\n' := fun e => h (by simp [e])
      have hcs : '\n' ∉ cs := fun m => h (List.mem_cons_of_mem c m)
      rw [advance_cons, ih _ hcs]
      simp only [step, hc, advanceColumns, List.length_cons, if_false, mk.injEq, true_and]
      omega

def text (p : Position) : String :=
  s!"{signedWord (p.line + 1)}:{signedWord (p.column + 1)}"

end Position

structure Span where
  start : Position
  stop : Position
deriving DecidableEq, Repr

namespace Span

def between? (start stop : Position) : Option Span :=
  if start.offset ≤ stop.offset then some ⟨start, stop⟩ else none

def length (s : Span) : Int :=
  s.stop.offset - s.start.offset

/-- The smallest span that covers both; of two ends at one offset the first span's counts. -/
def join (s t : Span) : Span where
  start := if t.start.offset < s.start.offset then t.start else s.start
  stop := if s.stop.offset < t.stop.offset then t.stop else s.stop

theorem join_self (s : Span) : s.join s = s := by
  simp [join]

theorem join_start_offset (s t : Span) :
    (s.join t).start.offset = min s.start.offset t.start.offset := by
  unfold join
  split <;> simp only <;> omega

theorem join_stop_offset (s t : Span) :
    (s.join t).stop.offset = max s.stop.offset t.stop.offset := by
  unfold join
  simp only
  split <;> omega

def text (s : Span) : String :=
  s!"{s.start.text}-{s.stop.text}"

end Span

end SmallLisp
