import SmallLisp.Proofs.Form.Places
import SmallLisp.Source.File
import Mathlib.Data.List.TakeWhile

namespace SmallLisp

structure Line.Shows (text : List Char) (offset : Nat) (l : Line) : Prop where
  number : (l.number : Int) = (Position.behind text offset).line + 1
  start : (l.start : Int) = offset - (Position.behind text offset).column
  column : (Position.behind text offset).column ≤ l.length
  stop : l.start + l.length = offset + ((text.drop offset).takeWhile (· ≠ '\n')).length
  unbroken : '\n' ∉ l.text
  text_eq : l.text = (text.drop l.start).take l.length

namespace Line

variable {whole seen rest : List Char} {lines : Nat}

theorem shows_here (hwhole : Position.start.advance whole = ⟨whole.length, lines, 0⟩)
    (hseen : '\n' ∉ seen) (rest : List Char) :
    Shows (whole ++ (seen ++ rest)) (whole.length + seen.length)
      ⟨lines + 1, whole.length, seen ++ rest.takeWhile (· ≠ '\n')⟩ := by
  have hdrop : (whole ++ (seen ++ rest)).drop (whole.length + seen.length) = rest := by
    rw [← List.append_assoc, ← List.length_append, List.drop_left]
  have hbehind : Position.behind (whole ++ (seen ++ rest)) (whole.length + seen.length) =
      ⟨whole.length + seen.length, lines, seen.length⟩ := by
    rw [Position.behind, ← List.append_assoc, ← List.length_append, List.take_left,
      Position.advance_append, hwhole, Position.advance_eq_advanceColumns _ _ hseen,
      Position.advanceColumns, Int.zero_add]
  have hrest : '\n' ∉ rest.takeWhile (· ≠ '\n') := fun hmem => by
    simpa using List.mem_takeWhile_imp hmem
  constructor
  · rw [hbehind]
    rfl
  · rw [hbehind]
    simp only
    omega
  · rw [hbehind]
    simp only [length, List.length_append]
    omega
  · rw [hdrop]
    simp only [length, List.length_append]
    omega
  · exact List.not_mem_append hseen hrest
  · rw [List.drop_left, length, List.length_append, List.take_length_add_append,
      ← List.prefix_iff_eq_take.mp (List.takeWhile_prefix _)]

theorem shows_find (hwhole : Position.start.advance whole = ⟨whole.length, lines, 0⟩)
    (hseen : '\n' ∉ seen) {ahead : Nat} (hahead : ahead ≤ rest.length) :
    Shows (whole ++ (seen.reverse ++ rest)) (whole.length + seen.length + ahead)
      (find (lines + 1) whole.length seen ahead rest) := by
  induction rest generalizing whole seen lines ahead with
  | nil =>
      obtain rfl := Nat.le_zero.mp hahead
      simpa [find] using shows_here hwhole (mt List.mem_reverse.mp hseen) []
  | cons c rest ih =>
      cases ahead with
      | zero => simpa [find] using shows_here hwhole (mt List.mem_reverse.mp hseen) (c :: rest)
      | succ ahead =>
          have hmore : ((ahead + 1 : Nat) : Int) ≠ 0 := by omega
          have hless : ((ahead + 1 : Nat) : Int) - 1 = ahead := by omega
          have hrest : ahead ≤ rest.length := Nat.le_of_succ_le_succ hahead
          rw [find, if_neg hmore, hless]
          by_cases hc : c = '\n'
          · -- What has been seen makes a whole line.
            subst hc
            have hlength : (whole ++ seen.reverse ++ ['\n']).length = whole.length + seen.length + 1 := by
              simp [Nat.add_assoc]
            have hline : Position.start.advance (whole ++ seen.reverse ++ ['\n']) =
                ⟨(whole ++ seen.reverse ++ ['\n']).length, (lines + 1 : Nat), 0⟩ := by
              rw [Position.advance_concat, Position.advance_append, hwhole,
                Position.advance_eq_advanceColumns _ _ (mt List.mem_reverse.mp hseen), hlength]
              simp [Position.advanceColumns, Position.step]
            have hlater := ih hline List.not_mem_nil hrest
            rw [hlength] at hlater
            simpa [Nat.add_assoc, Nat.add_comm 1 ahead] using hlater
          · have hmem : '\n' ∉ c :: seen := List.not_mem_cons_of_ne_of_not_mem (Ne.symm hc) hseen
            have hlater := ih hwhole hmem hrest
            rw [if_neg hc]
            simpa [Nat.add_assoc, Nat.add_comm 1 ahead] using hlater

theorem shows_enclosing {text : List Char} {offset : Nat} (h : offset ≤ text.length) :
    (enclosing text offset).Shows text offset := by
  have hstart : Position.start.advance [] = ⟨([] : List Char).length, (0 : Nat), 0⟩ := rfl
  have hfind := shows_find hstart List.not_mem_nil h
  simpa [enclosing] using hfind

end Line

theorem Position.column_nonneg {p : Position} (hp : 0 ≤ p.column) (cs : List Char) :
    0 ≤ (p.advance cs).column := by
  induction cs generalizing p with
  | nil => exact hp
  | cons c cs ih =>
      apply ih
      unfold step
      split
      · exact Int.le_refl 0
      · exact Int.le_add_one hp

namespace Diagnostic

variable {d : Diagnostic}

theorem shows_line {offset : Nat} (h : offset ≤ d.file.contents.length)
    (hstart : d.span.start = .behind d.file.contents offset) :
    d.line.Shows d.file.contents offset := by
  rw [line, File.lineOf, hstart, Position.behind_offset h]
  exact Line.shows_enclosing h

theorem caret_within_line (h : d.span.LiesIn d.file.contents) :
    0 ≤ d.span.start.column ∧ d.span.start.column ≤ d.line.length ∧ 0 ≤ d.extent := by
  obtain ⟨i, j, hij, hj, hspan⟩ := h
  have hi : i ≤ d.file.contents.length := Nat.le_trans hij hj
  have hstart : d.span.start = .behind d.file.contents i := congrArg Span.start hspan
  have hcolumn : d.span.start.column ≤ d.line.length := hstart ▸ (shows_line hi hstart).column
  have hlength : d.span.length = j - i := by
    rw [hspan, Span.length, Position.behind_offset hi, Position.behind_offset hj]
  refine ⟨hstart ▸ Position.column_nonneg (Int.le_refl 0) _, hcolumn, ?_⟩
  rw [extent, hlength]
  omega

end Diagnostic

end SmallLisp
