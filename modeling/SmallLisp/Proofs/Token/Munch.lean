import SmallLisp.Proofs.Token.Spelling
import SmallLisp.Proofs.Token.Tiling

/-!
Tokens as longest runs of characters. What stands at a place of a text is told here by the classes of
characters alone, without patterns and rules, and the scanner finds just that.
-/
namespace SmallLisp

namespace Munch

def single? : Char → Option Lexeme
  | '(' => some (.opener .paren)
  | ')' => some (.closer .paren)
  | '{' => some (.opener .brace)
  | '}' => some (.closer .brace)
  | '[' => some (.opener .square)
  | ']' => some (.closer .square)
  | ':' => some (.sigil .ascription)
  | '\\' => some (.sigil (.mark .lambda))
  | '`' => some (.sigil (.mark .quasiquote))
  | '\'' => some (.sigil (.mark .quote))
  | '~' => some (.sigil (.mark .unquote))
  | _ => none

def hexRun : List Char → List Char
  | '0' :: 'x' :: cs => cs.takeWhile Text.isHexDigit
  | _ => []

def numeral (cs : List Char) : List Char × Nat :=
  match hexRun cs with
  | [] => (cs.takeWhile Char.isDigit, Text.valueOf 10 (cs.takeWhile Char.isDigit))
  | d :: ds => ('0' :: 'x' :: d :: ds, Text.valueOf 16 (d :: ds))

def number (value : Nat) (span : Span) : Scanned :=
  if value ≤ Text.maxNumeral then .ok ⟨.number (Int64.ofNat value), span⟩
  else .error ⟨.overflow, span⟩

def symbol (run : List Char) (span : Span) : Scanned :=
  .ok ⟨.symbol (String.ofList run), span⟩

def invalid (c : Char) (span : Span) : Scanned :=
  .error ⟨.invalidChar c.toNat, span⟩

/-- What stands at the start of a text that starts with no blank: its characters, and the token or the
error that they are at a place. -/
def first (c : Char) (cs : List Char) : List Char × (Span → Scanned) :=
  match single? c with
  | some lexeme => ([c], fun span => .ok ⟨lexeme, span⟩)
  | none =>
      if c.isDigit then ((numeral (c :: cs)).1, number (numeral (c :: cs)).2)
      else if isSymbolStart c then
        ((c :: cs).takeWhile isSymbolChar, symbol ((c :: cs).takeWhile isSymbolChar))
      else ([c], invalid c)

/-- All that `first` can be. The proofs below go by these cases. -/
theorem first_cases (c : Char) (cs : List Char) :
    (∃ lexeme, single? c = some lexeme ∧ first c cs = ([c], fun span => .ok ⟨lexeme, span⟩)) ∨
      (c.isDigit ∧ first c cs = ((numeral (c :: cs)).1, number (numeral (c :: cs)).2)) ∨
      (isSymbolStart c ∧ first c cs =
        ((c :: cs).takeWhile isSymbolChar, symbol ((c :: cs).takeWhile isSymbolChar))) ∨
      (single? c = none ∧ c.isDigit = false ∧ isSymbolStart c = false ∧
        first c cs = ([c], invalid c)) := by
  cases hsingle : single? c with
  | some lexeme => exact .inl ⟨lexeme, rfl, by simp [first, hsingle]⟩
  | none =>
      right
      by_cases hdigit : c.isDigit
      · exact .inl ⟨hdigit, by simp [first, hsingle, hdigit]⟩
      · right
        by_cases hstart : isSymbolStart c
        · exact .inl ⟨hstart, by simp [first, hsingle, hdigit, hstart]⟩
        · exact .inr ⟨rfl, by simpa using hdigit, by simpa using hstart,
            by simp [first, hsingle, hdigit, hstart]⟩

theorem numeral_ne_nil {c : Char} (hc : c.isDigit) (cs : List Char) : (numeral (c :: cs)).1 ≠ [] := by
  unfold numeral
  split
  · simp [hc]
  · simp

theorem first_ne_nil (c : Char) (cs : List Char) : (first c cs).1 ≠ [] := by
  rcases first_cases c cs with ⟨_, _, hfirst⟩ | ⟨hdigit, hfirst⟩ | ⟨hstart, hfirst⟩ | ⟨_, _, _, hfirst⟩
  · simp [hfirst]
  · rw [hfirst]
    exact numeral_ne_nil hdigit cs
  · simp [hfirst, isSymbolChar_of_isSymbolStart hstart]
  · simp [hfirst]

def runs (p : Position) : List Char → List Scanned
  | [] => []
  | c :: cs =>
      if Text.isBlank c then runs (p.step c) cs
      else
        let run := (first c cs).1
        (first c cs).2 ⟨p, p.advance run⟩ :: runs (p.advance run) ((c :: cs).drop run.length)
termination_by cs => cs.length
decreasing_by
  · simp
  · have hpos := List.length_pos_iff.mpr (first_ne_nil c cs)
    simp only [List.length_drop, List.length_cons]
    omega

end Munch

namespace Pattern

theorem hexDigit_width_cons (c : Char) (cs : List Char) :
    hexDigit.width (c :: cs) = if Text.isHexDigit c then 1 else 0 := by
  by_cases hd : '0' ≤ c ∧ c ≤ '9'
  · simp [hexDigit, width, anyWidth, Text.isHexDigit, hd]
  · by_cases hu : 'A' ≤ c ∧ c ≤ 'F'
    · simp [hexDigit, width, anyWidth, Text.isHexDigit, hd, hu]
    · by_cases hl : 'a' ≤ c ∧ c ≤ 'f'
      · simp [hexDigit, width, anyWidth, Text.isHexDigit, hd, hu, hl]
      · simp [hexDigit, width, anyWidth, Text.isHexDigit, hd, hu, hl]

theorem hexDigits_width (cs : List Char) :
    (many hexDigit).width cs = (cs.takeWhile Text.isHexDigit).length := by
  rw [width]
  exact repeatWidth_single hexDigit_width_cons cs

theorem hexNumeral_width (cs : List Char) :
    (seq [.literal ['0', 'x'], .many hexDigit]).width ('0' :: 'x' :: cs) =
      if cs.takeWhile Text.isHexDigit = [] then 0 else (cs.takeWhile Text.isHexDigit).length + 2 := by
  have hliteral : (literal ['0', 'x']).width ('0' :: 'x' :: cs) = 2 := by simp [width]
  rw [width, seqWidth, hliteral]
  cases cs with
  | nil => rfl
  | cons d ds =>
      simp only [Nat.reduceAdd, List.drop_succ_cons, List.drop_zero, seqWidth, hexDigits_width]
      cases (d :: ds).takeWhile Text.isHexDigit with
      | nil => rfl
      | cons e es => exact Nat.add_comm 2 (es.length + 1)

theorem hexRun_eq_nil {cs : List Char} (h : ['0', 'x'].isPrefixOf cs = false) :
    Munch.hexRun cs = [] := by
  unfold Munch.hexRun
  split
  · simp at h
  · rfl

theorem numeral_width_eq (cs : List Char) : numeral.width cs = (Munch.numeral cs).1.length := by
  cases hprefix : ['0', 'x'].isPrefixOf cs with
  | false => rw [numeral_width hprefix, Munch.numeral, hexRun_eq_nil hprefix]
  | true =>
      obtain ⟨ds, rfl⟩ := List.isPrefixOf_iff_prefix.mp hprefix
      have hhex := hexNumeral_width ds
      have hdecimal := decimal_width ('0' :: 'x' :: ds)
      simp only [numeral, any_pair_width, List.cons_append, List.nil_append, hhex, hdecimal,
        Munch.numeral, Munch.hexRun]
      cases ds.takeWhile Text.isHexDigit with
      | nil => rfl
      | cons e es => rfl

end Pattern

namespace Munch

open Lexer (firstMatch?)

theorem mark_of_single? {c : Char} (h : single? c = none) : (isBracket c || isSigil c) = false := by
  rw [Bool.eq_false_iff]
  intro hmark
  simp only [isBracket, isSigil, Delimiter.opening, Delimiter.closing, Sigil.char, Mark.char,
    List.any_cons, List.any_nil, Bool.or_false, Bool.or_eq_true, beq_iff_eq] at hmark
  rcases hmark with ((rfl | rfl) | (rfl | rfl) | (rfl | rfl)) | rfl | rfl | rfl | rfl | rfl <;> cases h

theorem firstMatch?_single {c : Char} {lexeme : Lexeme} (h : single? c = some lexeme)
    (cs : List Char) :
    ∃ r, firstMatch? tokenRules (c :: cs) = some (r, 1) ∧
      ∀ span text, Scanner.scanned r.tag span text = .ok ⟨lexeme, span⟩ := by
  unfold single? at h
  split at h <;> cases h <;> exact ⟨_, rfl, fun _ _ => rfl⟩

theorem firstMatch?_numeral {c : Char} (hc : c.isDigit) (cs : List Char) :
    firstMatch? tokenRules (c :: cs) =
      some (⟨.numeral, .number, true⟩, (numeral (c :: cs)).1.length) := by
  rw [Scanner.firstMatch?_of_isSymbolChar (isSymbolChar_of_isDigit hc)]
  have hwidth : 0 < Pattern.numeral.width (c :: cs) := by
    rw [Pattern.numeral_width_eq]
    exact List.length_pos_iff.mpr (numeral_ne_nil hc cs)
  rw [← Pattern.numeral_width_eq]
  exact Lexer.firstMatch?_cons_of_width hwidth

theorem firstMatch?_stray {c : Char} (hblank : Text.isBlank c = false) (hsingle : single? c = none)
    (hdigit : c.isDigit = false) (hstart : isSymbolStart c = false) (cs : List Char) :
    firstMatch? tokenRules (c :: cs) = none := by
  have hnumeral : Pattern.numeral.width (c :: cs) = 0 := by
    have hne : c ≠ '0' := by
      rintro rfl
      simp at hdigit
    rw [Pattern.numeral_width (by simp [List.isPrefixOf, hne.symm]), List.takeWhile_cons, hdigit]
    rfl
  have hsymbol : Pattern.symbol.width (c :: cs) = 0 := by simp [Pattern.symbol_width_cons, hstart]
  rw [Scanner.firstMatch?_of_not_mark (mark_of_single? hsingle) hblank]
  simp only [Scanner.wordRules, tokenRules, List.drop_succ_cons, List.drop_zero, firstMatch?, hnumeral,
    hsymbol, Pattern.width]

theorem numeral_initial (cs : List Char) : (numeral cs).1 <+: cs := by
  unfold numeral hexRun
  split
  · exact List.takeWhile_prefix _
  · next d ds hrun =>
      split at hrun
      · next es =>
          rw [← hrun]
          exact List.prefix_append_right_inj ['0', 'x'] |>.mpr (List.takeWhile_prefix _)
      · cases hrun

theorem numeralValue_numeral (cs : List Char) :
    Text.numeralValue (numeral cs).1 = (numeral cs).2 := by
  unfold numeral
  split
  · exact Text.numeralValue_of_isDigit fun d hd => List.all_eq_true.mp List.all_takeWhile d hd
  · rfl

theorem scanned_numeral (cs : List Char) (span : Span) :
    Scanner.scanned .number span (numeral cs).1 = number (numeral cs).2 span := by
  by_cases hvalue : (numeral cs).2 ≤ Text.maxNumeral
  · simp [Scanner.scanned, Text.numeral?, numeralValue_numeral, number, hvalue]
  · simp [Scanner.scanned, Text.numeral?, numeralValue_numeral, number, hvalue]

theorem scans_run {p : Position} {c : Char} {cs run : List Char} {r : Rule TokenKind}
    {found : List Scanned} {i : Span → Scanned} (hc : Text.isBlank c = false)
    (hm : firstMatch? tokenRules (c :: cs) = some (r, run.length)) (hrun : run <+: c :: cs)
    (hi : ∀ span, Scanner.scanned r.tag span run = i span)
    (h : Scanner.Scans (p.advance run) ((c :: cs).drop run.length) found) :
    Scanner.Scans p (c :: cs) (i ⟨p, p.advance run⟩ :: found) := by
  have htake : (c :: cs).take run.length = run := (List.prefix_iff_eq_take.mp hrun).symm
  rw [← htake] at h
  have hpiece := Scanner.Scans.piece hc hm (by simpa only [htake] using h)
  rwa [htake, hi] at hpiece

theorem scans_first {p : Position} {c : Char} {cs : List Char} {found : List Scanned}
    (hc : Text.isBlank c = false)
    (h : Scanner.Scans (p.advance (first c cs).1) ((c :: cs).drop (first c cs).1.length) found) :
    Scanner.Scans p (c :: cs) ((first c cs).2 ⟨p, p.advance (first c cs).1⟩ :: found) := by
  rcases first_cases c cs with ⟨lexeme, hsingle, hfirst⟩ | ⟨hdigit, hfirst⟩ | ⟨hstart, hfirst⟩ |
    ⟨hsingle, hdigit, hstart, hfirst⟩
  · rw [hfirst] at h ⊢
    obtain ⟨r, hm, hscanned⟩ := firstMatch?_single hsingle cs
    exact scans_run hc hm (by simp) (fun span => hscanned span [c]) h
  · rw [hfirst] at h ⊢
    exact scans_run hc (firstMatch?_numeral hdigit cs) (numeral_initial _) (scanned_numeral _) h
  · rw [hfirst] at h ⊢
    exact scans_run hc (Scanner.firstMatch?_symbol hstart) (List.takeWhile_prefix _) (fun _ => rfl) h
  · rw [hfirst] at h ⊢
    exact .stray hc (firstMatch?_stray hc hsingle hdigit hstart cs) h

theorem scans_runs (p : Position) (cs : List Char) : Scanner.Scans p cs (runs p cs) := by
  fun_induction runs p cs with
  | case1 p => exact .nil
  | case2 p c cs hc ih => exact .blank hc ih
  | case3 p c cs hc run ih => exact scans_first (by simpa using hc) ih

theorem scan_eq_runs (text : List Char) : scan text = runs .start text :=
  ((Scanner.scan_scans text).agree (scans_runs .start text)).2 rfl

def split (text : List Char) : List Token × List TokenError :=
  ((runs .start text).filterMap fun | .ok t => some t | .error _ => none,
    (runs .start text).filterMap fun | .ok _ => none | .error e => some e)

theorem tokenize_eq_split (text : List Char) : tokenize text = split text := by
  rw [tokenize, scan_eq_runs]
  rfl

end Munch

end SmallLisp
