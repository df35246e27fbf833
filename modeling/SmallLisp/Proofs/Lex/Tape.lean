import Mathlib.Algebra.Group.Nat.Defs
import SmallLisp.Proofs.Lex.Counting
import SmallLisp.Proofs.Token.Tiling

/-!
A lexer as a machine holds it: the whole text and an index into it, a signed word. The index at which a
piece stops is computed with words, which wrap around, and only then compared with the size of the text.
What a lexer makes of the characters not yet cut is what comes of that, as long as the index can be
computed.
-/
namespace SmallLisp

/-- A text that fits into a memory of which every byte has a word as its address; a character takes four
bytes. -/
def Addressable (text : List Char) : Prop := 4 * text.length < UInt64.size

instance (text : List Char) : Decidable (Addressable text) :=
  inferInstanceAs (Decidable (4 * text.length < UInt64.size))

theorem Addressable.length_lt {text : List Char} (h : Addressable text) : text.length < 2 ^ 62 := by
  rw [Addressable, UInt64.size] at h
  omega

theorem toInt_min (m n : Int64) : (min m n).toInt = min m.toInt n.toInt := by
  change (if m ≤ n then m else n).toInt = _
  rw [apply_ite Int64.toInt, Int.min_def]
  simp only [Int64.le_iff_toInt_le]

theorem toInt_add_toInt64 (m : Int64) (n : UInt64) :
    (m + n.toInt64).toInt = (m.toInt + n.toNat).bmod Int64.size := by
  have hn : n.toInt64.toInt = (n.toNat : Int).bmod Int64.size := by
    calc n.toInt64.toInt = (Int64.ofNat n.toNat).toInt := by
          rw [← UInt64.toInt64_ofNat', UInt64.ofNat_toNat]
      _ = (n.toNat : Int).bmod Int64.size := Int64.toInt_ofNat'
  calc (m + n.toInt64).toInt = (m.toInt + n.toInt64.toInt).bmod Int64.size := Int64.toInt_add m n.toInt64
    _ = (m.toInt + n.toNat).bmod Int64.size := by rw [hn, Int.add_bmod_bmod]

structure Tape where
  text : List Char
  index : Int64
  pos : Position
  finished : Bool

namespace Tape

variable {τ : Type}

def ofText (text : List Char) : Tape := ⟨text, 0, .start, false⟩

def size (t : Tape) : Int64 := .ofNat t.text.length

def slice? (t : Tape) (start stop : Int64) : Option (List Char) :=
  if 0 ≤ start ∧ start ≤ stop ∧ stop ≤ t.size then
    some ((t.text.take stop.toInt.toNat).drop start.toInt.toNat)
  else none

def lookahead? (t : Tape) : Option (Option Char) :=
  if t.index < t.size then
    if 0 ≤ t.index then (t.text[t.index.toInt.toNat]?).map some else none
  else some none

def target (t : Tape) (n : UInt64) : Int64 := min t.size (t.index + n.toInt64)

def firstMatch? (t : Tape) : List (Rule τ) → Option (Option (Rule τ × UInt64))
  | [] => some none
  | r :: rs => do
      let n ← r.pattern.count? (← t.slice? t.index t.size)
      if n = 0 then t.firstMatch? rs else some (some (r, n))

/-- The position at an index. Within a line the characters before it are not looked at. -/
def posAt? (t : Tape) (inline : Bool) (stop : Int64) : Option Position :=
  if inline then some (t.pos.advanceColumns (stop - t.index).toInt)
  else (t.slice? t.index stop).map t.pos.advance

def moveTo? (t : Tape) (inline : Bool) (stop : Int64) : Option (Span × Tape) := do
  let pos ← t.posAt? inline stop
  let span ← Span.between? t.pos pos
  some (span, { t with index := stop, pos := pos })

def cut? (t : Tape) (r : Rule τ) (n : UInt64) : Option ((τ × Span) × Tape) := do
  let (span, t') ← t.moveTo? r.inline (t.target n)
  some ((r.tag, span), { t' with finished := t.index = t'.index })

def next? (rules : List (Rule τ)) (t : Tape) : Option (Option (τ × Span) × Tape) :=
  if t.finished ∨ t.size < t.index then some (none, t)
  else do
    match ← t.firstMatch? rules with
    | none => some (none, t)
    | some (r, n) =>
        let (token, t') ← t.cut? r n
        some (some token, t')

def skip? (t : Tape) (n : UInt64) : Option (Span × Tape) := t.moveTo? false (t.target n)

end Tape

namespace Lexer

def consumed (text : List Char) (l : Lexer) : Nat := text.length - l.rest.length

structure Within (text : List Char) (l : Lexer) : Prop where
  suffix : l.rest <:+ text
  offset : l.pos.offset = l.consumed text
  ended : l.finished → l.rest = []

def onTape (text : List Char) (l : Lexer) : Tape := ⟨text, .ofNat (l.consumed text), l.pos, l.finished⟩

variable {τ : Type} {text : List Char} {l : Lexer}

theorem within_ofText (text : List Char) : (ofText text).Within text where
  suffix := List.suffix_refl text
  offset := by simp [consumed, ofText, Position.start]
  ended := nofun

theorem onTape_ofText (text : List Char) : (ofText text).onTape text = .ofText text := by
  simp [onTape, consumed, ofText, Tape.ofText]

theorem consumed_lt (l : Lexer) (hsize : Addressable text) : l.consumed text < 2 ^ 62 :=
  Nat.lt_of_le_of_lt (Nat.sub_le _ _) hsize.length_lt

theorem toInt_index (l : Lexer) (hsize : Addressable text) :
    (l.onTape text).index.toInt = l.consumed text :=
  Int64.toInt_ofNat_of_lt (Nat.lt_trans (l.consumed_lt hsize) (by decide))

theorem toInt_size (l : Lexer) (hsize : Addressable text) :
    (l.onTape text).size.toInt = text.length :=
  Int64.toInt_ofNat_of_lt (Nat.lt_trans hsize.length_lt (by decide))

theorem toInt_target_lt (l : Lexer) (hsize : Addressable text) {n : UInt64}
    (hn : 2 ^ 63 ≤ l.consumed text + n.toNat) :
    ((l.onTape text).target n).toInt < l.consumed text := by
  have hlt := l.consumed_lt hsize
  have hword := n.toNat_lt
  -- The sum is below the index plus 2^64, so it wraps around once, to somewhere below the index.
  have hwrap : (l.consumed text + n.toNat : Int).bmod Int64.size =
      l.consumed text + n.toNat - Int64.size := by
    rw [← Int.sub_bmod_right, Int64.size]
    exact Int.bmod_eq_of_le (by omega) (by omega)
  rw [Tape.target, toInt_min, toInt_add_toInt64, l.toInt_index hsize, hwrap, Int64.size]
  omega

theorem slice?_of_lt (l : Lexer) (hsize : Addressable text) {stop : Int64}
    (hstop : stop.toInt < l.consumed text) :
    (l.onTape text).slice? (l.onTape text).index stop = none := by
  rw [Tape.slice?, if_neg]
  rintro ⟨-, hle, -⟩
  rw [Int64.le_iff_toInt_le, l.toInt_index hsize] at hle
  omega

def posBehind (l : Lexer) (inline : Bool) (n : Nat) : Position :=
  if inline then l.pos.advanceColumns (l.rest.take n).length else l.pos.advance (l.rest.take n)

theorem posBehind_offset (l : Lexer) (inline : Bool) (n : Nat) :
    (l.posBehind inline n).offset = l.pos.offset + (l.rest.take n).length := by
  unfold posBehind
  split
  · rfl
  · exact Position.advance_offset _ _

theorem cut_eq (l : Lexer) (r : Rule τ) (n : Nat) :
    l.cut r n = (⟨r.tag, ⟨l.pos, l.posBehind r.inline n⟩, l.rest.take n⟩,
      ⟨l.rest.drop n, l.posBehind r.inline n, (l.rest.take n).isEmpty⟩) := rfl

namespace Within

theorem consumed_add (h : l.Within text) : l.consumed text + l.rest.length = text.length :=
  Nat.sub_add_cancel h.suffix.length_le

theorem rest_eq (h : l.Within text) : l.rest = text.drop (l.consumed text) :=
  List.suffix_iff_eq_drop.mp h.suffix

theorem consumed_drop (h : l.Within text) (n : Nat) (pos : Position) (finished : Bool) :
    consumed text ⟨l.rest.drop n, pos, finished⟩ = l.consumed text + (l.rest.take n).length := by
  have hadd := h.consumed_add
  simp only [consumed, List.length_drop, List.length_take] at hadd ⊢
  omega

theorem drop (h : l.Within text) {n : Nat} {pos : Position} {finished : Bool}
    (hpos : pos.offset = l.pos.offset + (l.rest.take n).length)
    (hended : finished → l.rest.drop n = []) : Within text ⟨l.rest.drop n, pos, finished⟩ where
  suffix := (List.drop_suffix n l.rest).trans h.suffix
  offset := by
    rw [h.consumed_drop, hpos, h.offset]
    omega
  ended := hended

variable (h : l.Within text) (hsize : Addressable text)
include h hsize

theorem toInt_target {n : UInt64} (hn : l.consumed text + n.toNat < 2 ^ 63) :
    ((l.onTape text).target n).toInt = l.consumed text + (l.rest.take n.toNat).length := by
  have hadd := h.consumed_add
  rw [Tape.target, toInt_min, toInt_add_toInt64, l.toInt_size hsize, l.toInt_index hsize, List.length_take,
    Int64.size, Int.bmod_eq_of_le (by omega) (by omega)]
  omega

theorem slice?_ahead {stop : Int64} {n : Nat}
    (hstop : stop.toInt = l.consumed text + (l.rest.take n).length) :
    (l.onTape text).slice? (l.onTape text).index stop = some (l.rest.take n) := by
  have hadd := h.consumed_add
  have hle : (l.rest.take n).length ≤ l.rest.length := List.length_take_le' n l.rest
  have horder : 0 ≤ (l.onTape text).index ∧ (l.onTape text).index ≤ stop ∧
      stop ≤ (l.onTape text).size := by
    simp only [Int64.le_iff_toInt_le, l.toInt_index hsize, l.toInt_size hsize, hstop, Int64.toInt_zero]
    omega
  have htext : (text.take (l.consumed text + (l.rest.take n).length)).drop (l.consumed text) =
      l.rest.take n := by
    rw [List.drop_take, ← h.rest_eq, Nat.add_sub_cancel_left, List.length_take, ← List.take_eq_take_min]
  rw [Tape.slice?, if_pos horder, l.toInt_index hsize, hstop]
  exact congrArg some htext

theorem slice?_rest : (l.onTape text).slice? (l.onTape text).index (l.onTape text).size = some l.rest := by
  have hstop : (l.onTape text).size.toInt =
      l.consumed text + (l.rest.take l.rest.length).length := by
    have hadd := h.consumed_add
    rw [l.toInt_size hsize, List.take_length]
    omega
  rw [h.slice?_ahead hsize hstop, List.take_length]

theorem onTape_drop {stop : Int64} {n : Nat}
    (hstop : stop.toInt = l.consumed text + (l.rest.take n).length) (pos : Position) (finished : Bool) :
    onTape text ⟨l.rest.drop n, pos, finished⟩ = ⟨text, stop, pos, finished⟩ := by
  have hlength := hsize.length_lt
  have hle : (l.rest.take n).length ≤ l.rest.length := List.length_take_le' n l.rest
  have hadd := h.consumed_add
  have hindex : Int64.ofNat (l.consumed text + (l.rest.take n).length) = stop := by
    rw [← Int64.toInt_inj, Int64.toInt_ofNat_of_lt (by omega), hstop]
    rfl
  rw [onTape, h.consumed_drop, hindex]

theorem firstMatch?_onTape (rules : List (Rule τ)) :
    (l.onTape text).firstMatch? rules =
      some ((Lexer.firstMatch? rules l.rest).map fun (r, n) => (r, .ofNat n)) := by
  have hrest : l.rest.length < UInt64.size :=
    Nat.lt_trans (Nat.lt_of_le_of_lt h.suffix.length_le hsize.length_lt) (by decide)
  induction rules with
  | nil => rfl
  | cons r rules ih =>
      have hwidth := Pattern.width_lt_size r.pattern hrest
      simp only [Tape.firstMatch?, h.slice?_rest hsize, Option.bind_eq_bind, Option.bind_some,
        Pattern.count?_eq r.pattern hrest, Lexer.firstMatch?]
      cases hn : r.pattern.width l.rest with
      | zero => exact ih
      | succ n =>
          rw [hn] at hwidth
          rw [if_neg (ofNat_succ_ne_zero hwidth)]
          rfl

theorem lookahead?_onTape : (l.onTape text).lookahead? = some l.lookahead? := by
  have hadd := h.consumed_add
  have hhead : text[l.consumed text]? = l.rest.head? := by rw [h.rest_eq, List.head?_drop]
  simp only [Tape.lookahead?, Int64.lt_iff_toInt_lt, Int64.le_iff_toInt_le, l.toInt_index hsize,
    l.toInt_size hsize, Int64.toInt_zero, Int.toNat_natCast, Lexer.lookahead?]
  cases hrest : l.rest with
  | nil =>
      rw [hrest, List.length_nil] at hadd
      rw [if_neg (by omega)]
      rfl
  | cons c cs =>
      rw [hrest, List.length_cons] at hadd
      rw [hrest] at hhead
      rw [if_pos (by omega), if_pos (by omega)]
      exact congrArg (Option.map some) hhead

theorem moveTo?_onTape (inline : Bool) {stop : Int64} {n : Nat}
    (hstop : stop.toInt = l.consumed text + (l.rest.take n).length) :
    (l.onTape text).moveTo? inline stop =
      some (⟨l.pos, l.posBehind inline n⟩, onTape text ⟨l.rest.drop n, l.posBehind inline n, l.finished⟩) := by
  have hlength := hsize.length_lt
  have hadd := h.consumed_add
  have htake : (l.rest.take n).length ≤ l.rest.length := List.length_take_le' n l.rest
  have hpos : (l.onTape text).posAt? inline stop = some (l.posBehind inline n) := by
    have hcolumns : (stop - (l.onTape text).index).toInt = (l.rest.take n).length := by
      rw [Int64.toInt_sub, hstop, l.toInt_index hsize, Int.bmod_eq_of_le (by omega) (by omega)]
      omega
    rw [Tape.posAt?, h.slice?_ahead hsize hstop, hcolumns, posBehind]
    split <;> rfl
  have hle : l.pos.offset ≤ (l.posBehind inline n).offset := by
    rw [posBehind_offset]
    omega
  have hspan : Span.between? l.pos (l.posBehind inline n) = some ⟨l.pos, l.posBehind inline n⟩ :=
    if_pos hle
  rw [Tape.moveTo?, hpos, h.onTape_drop hsize hstop]
  simp only [onTape, Option.bind_eq_bind, Option.bind_some, hspan]

/-- The index is computed with words, so it is right up to the last signed word, and no further. -/
theorem skip?_onTape (n : UInt64) :
    (l.onTape text).skip? n = (l.skip? n).map fun (span, l') => (span, l'.onTape text) := by
  rw [Tape.skip?, Lexer.skip?, h.offset]
  rcases Nat.lt_or_ge (l.consumed text + n.toNat) (2 ^ 63) with hlt | hge
  · have hfits : (l.consumed text : Int) + n.toNat < offsetLimit := by
      rw [offsetLimit]
      omega
    rw [h.moveTo?_onTape hsize false (h.toInt_target hsize hlt), if_pos hfits]
    rfl
  · have hexceeds : ¬(l.consumed text : Int) + n.toNat < offsetLimit := by
      rw [offsetLimit]
      omega
    have hslice := l.slice?_of_lt hsize (l.toInt_target_lt hsize hge)
    rw [if_neg hexceeds, Tape.moveTo?, Tape.posAt?, hslice]
    rfl

theorem cut?_onTape (r : Rule τ) {n : Nat} (hn : n ≤ max 1 l.rest.length) :
    (l.onTape text).cut? r (.ofNat n) =
      some (((l.cut r n).1.tag, (l.cut r n).1.span), (l.cut r n).2.onTape text) := by
  have hlength := hsize.length_lt
  have hadd := h.consumed_add
  have hcount : (UInt64.ofNat n).toNat = n :=
    UInt64.toNat_ofNat_of_lt' (Nat.lt_of_lt_of_le (show n < 2 ^ 63 by omega) (by decide))
  have hstop : ((l.onTape text).target (.ofNat n)).toInt =
      l.consumed text + (l.rest.take n).length := by
    rw [h.toInt_target hsize (by omega), hcount]
  have hended : decide ((l.onTape text).index = (l.onTape text).target (.ofNat n)) =
      (l.rest.take n).isEmpty := by
    rw [Bool.eq_iff_iff, decide_eq_true_iff, ← Int64.toInt_inj, l.toInt_index hsize, hstop,
      List.isEmpty_iff_length_eq_zero]
    omega
  have hmove := h.moveTo?_onTape hsize r.inline hstop
  rw [h.onTape_drop hsize hstop] at hmove
  simp only [Tape.cut?, hmove, Option.bind_eq_bind, Option.bind_some, hended, cut_eq,
    h.onTape_drop hsize hstop]

theorem next?_onTape (rules : List (Rule τ)) :
    (l.onTape text).next? rules = some
      (match l.next? rules with
        | none => (none, l.onTape text)
        | some (piece, l') => (some (piece.tag, piece.span), l'.onTape text)) := by
  have hadd := h.consumed_add
  have hindex : ¬(l.onTape text).size < (l.onTape text).index := by
    rw [Int64.lt_iff_toInt_lt, l.toInt_index hsize, l.toInt_size hsize]
    omega
  rw [Tape.next?, Lexer.next?]
  cases hfinished : l.finished with
  | true => rw [if_pos (.inl hfinished), if_pos rfl]
  | false =>
      rw [if_neg (not_or.mpr ⟨(by simp [onTape, hfinished]), hindex⟩), if_neg (by simp),
        h.firstMatch?_onTape hsize]
      cases hmatch : Lexer.firstMatch? rules l.rest with
      | none => rfl
      | some found =>
          obtain ⟨r, n⟩ := found
          obtain ⟨-, hwidth, -⟩ := Lexer.firstMatch?_spec hmatch
          have hcut := h.cut?_onTape hsize r (hwidth ▸ r.pattern.width_le_max l.rest)
          simp only [Option.map_some, Option.bind_eq_bind, Option.bind_some, hcut]

end Within

end Lexer

end SmallLisp
