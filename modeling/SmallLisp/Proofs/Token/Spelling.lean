import SmallLisp.Proofs.Text.Numeral
import SmallLisp.Proofs.Token.Scanning

namespace SmallLisp

theorem isSymbolChar_of_isSymbolStart {c : Char} (h : isSymbolStart c) : isSymbolChar c := by
  simp only [isSymbolStart, Bool.and_eq_true] at h
  exact h.1

theorem isSymbolChar_of_isBlank {c : Char} (h : Text.isBlank c) : isSymbolChar c = false := by
  simp [isSymbolChar, h]

theorem isBlank_of_isSymbolChar {c : Char} (h : isSymbolChar c) : Text.isBlank c = false := by
  simp only [isSymbolChar, Bool.and_eq_true, Bool.not_eq_true'] at h
  exact h.1.1.1

theorem isSymbolChar_of_isDigit {c : Char} (h : c.isDigit) : isSymbolChar c :=
  Text.forall_isDigit (P := fun c => isSymbolChar c) (by decide) h

theorem isDecimalDigit_of_isDigit {c : Char} (h : c.isDigit) : Text.isDecimalDigit c :=
  Text.forall_isDigit (P := fun c => Text.isDecimalDigit c) (by decide) h

namespace Pattern

theorem repeatWidth_single {width : List Char → Nat} {test : Char → Bool}
    (h : ∀ c cs, width (c :: cs) = if test c then 1 else 0) (cs : List Char) :
    repeatWidth width 0 cs = (cs.takeWhile test).length := by
  induction cs with
  | nil => rfl
  | cons c cs ih =>
      cases hc : test c with
      | true => simp [repeatWidth, h, hc, ih]
      | false => simp [repeatWidth, h, hc]

theorem symbol_width_cons (c : Char) (cs : List Char) : symbol.width (c :: cs) =
    if isSymbolStart c then ((c :: cs).takeWhile isSymbolChar).length else 0 := by
  have hmany : repeatWidth (Pattern.satisfy isSymbolChar).width 0 (c :: cs) =
      ((c :: cs).takeWhile isSymbolChar).length :=
    repeatWidth_single (fun _ _ => by simp [width]) _
  cases hs : isSymbolStart c with
  | false => simp [symbol, width, allWidth, hs]
  | true =>
      simp [symbol, width, allWidth, hmany, hs, isSymbolChar_of_isSymbolStart hs]

theorem any_pair_width (p q : Pattern) (cs : List Char) :
    (any [p, q]).width cs = if p.width cs = 0 then q.width cs else p.width cs := by
  simp only [width, anyWidth]
  cases p.width cs with
  | zero => cases q.width cs <;> rfl
  | succ n => rfl

theorem decimal_width (cs : List Char) :
    (many (.within '0' '9')).width cs = (cs.takeWhile Char.isDigit).length := by
  rw [width]
  refine repeatWidth_single (fun c ds => ?_) cs
  simp [width, Char.isDigit, Char.le_def]

theorem numeral_width {cs : List Char} (h : ['0', 'x'].isPrefixOf cs = false) :
    numeral.width cs = (cs.takeWhile Char.isDigit).length := by
  have hhex : (seq [.literal ['0', 'x'], .many hexDigit]).width cs = 0 := by
    cases cs with
    | nil => rfl
    | cons c cs => simp only [width, seqWidth, h, Bool.false_eq_true, if_false]
  rw [numeral, any_pair_width, if_pos hhex, decimal_width]

end Pattern

/-- A lexeme that has a spelling: no number below zero, and no symbol without characters, with a digit
before all others or with a character that no symbol holds. -/
def Lexeme.Spellable : Lexeme → Prop
  | .number value => 0 ≤ value
  | .symbol text => text.toList.head?.any isSymbolStart ∧ ∀ c ∈ text.toList, isSymbolChar c
  | _ => True

instance : DecidablePred Lexeme.Spellable
  | .number value => inferInstanceAs (Decidable (0 ≤ value))
  | .symbol text =>
      have : Decidable (∀ c ∈ text.toList, isSymbolChar c) := List.decidableBAll _ _
      inferInstanceAs (Decidable (text.toList.head?.any isSymbolStart ∧
        ∀ c ∈ text.toList, isSymbolChar c))
  | .opener _ => isTrue trivial
  | .closer _ => isTrue trivial
  | .sigil _ => isTrue trivial

namespace Scanner

open Lexer (firstMatch?)

/-- A text spells lexemes if these are what is found in it, wherever it starts. -/
def Spells (cs : List Char) (lexemes : List Lexeme) : Prop :=
  ∀ p, ∃ ts : List Token, Scans p cs (ts.map .ok) ∧ ts.map Token.lexeme = lexemes

theorem Spells.nil : Spells [] [] := fun _ => ⟨[], .nil, rfl⟩

theorem Spells.blank {c : Char} (hc : Text.isBlank c) {cs : List Char} {lexemes : List Lexeme}
    (h : Spells cs lexemes) : Spells (c :: cs) lexemes := by
  intro p
  obtain ⟨ts, hs, hts⟩ := h (p.step c)
  exact ⟨ts, .blank hc hs, hts⟩

theorem Spells.piece {c : Char} {w rest : List Char} {r : Rule TokenKind} {l : Lexeme}
    {lexemes : List Lexeme} (hc : Text.isBlank c = false)
    (hm : firstMatch? tokenRules (c :: (w ++ rest)) = some (r, w.length + 1))
    (hl : ∀ span, scanned r.tag span (c :: w) = .ok ⟨l, span⟩) (h : Spells rest lexemes) :
    Spells (c :: (w ++ rest)) (l :: lexemes) := by
  intro p
  obtain ⟨ts, hs, hts⟩ := h (p.advance (c :: w))
  have htake : (c :: (w ++ rest)).take (w.length + 1) = c :: w := by simp
  have hdrop : (c :: (w ++ rest)).drop (w.length + 1) = rest := by simp
  have hs' : Scans (p.advance ((c :: (w ++ rest)).take (w.length + 1)))
      ((c :: (w ++ rest)).drop (w.length + 1)) (ts.map .ok) := by rwa [htake, hdrop]
  have hp := Scans.piece hc hm hs'
  rw [htake, hl] at hp
  exact ⟨⟨l, ⟨p, p.advance (c :: w)⟩⟩ :: ts, hp, by rw [List.map_cons, hts]⟩

variable {rest : List Char} {lexemes : List Lexeme}

theorem Spells.opener (d : Delimiter) (h : Spells rest lexemes) :
    Spells (d.opening :: rest) (.opener d :: lexemes) := by
  cases d <;> exact .piece (w := []) (by decide) rfl (fun _ => rfl) h

theorem Spells.closer (d : Delimiter) (h : Spells rest lexemes) :
    Spells (d.closing :: rest) (.closer d :: lexemes) := by
  cases d <;> exact .piece (w := []) (by decide) rfl (fun _ => rfl) h

theorem Spells.sigil (s : Sigil) (h : Spells rest lexemes) :
    Spells (s.char :: rest) (.sigil s :: lexemes) := by
  cases s with
  | ascription => exact .piece (w := []) (by decide) rfl (fun _ => rfl) h
  | mark m => cases m <;> exact .piece (w := []) (by decide) rfl (fun _ => rfl) h

theorem firstMatch?_of_not_mark {c : Char} (hmark : (isBracket c || isSigil c) = false)
    (hblank : Text.isBlank c = false) (cs : List Char) :
    firstMatch? tokenRules (c :: cs) = firstMatch? wordRules (c :: cs) := by
  have hmarks : ∀ r ∈ markRules, r.pattern.width (c :: cs) = 0 := by
    intro r hr
    obtain ⟨d, hd, hmark', _⟩ := markRules_literal hr
    have hne : d ≠ c := by
      rintro rfl
      simp [hmark] at hmark'
    simp [hd, Pattern.width, hne]
  rw [tokenRules_eq, Lexer.firstMatch?_append_of_width_eq_zero hmarks]
  simp only [firstMatch?, blankRule, blanks_width_of_not_blank hblank]

theorem firstMatch?_of_isSymbolChar {c : Char} (hc : isSymbolChar c) (cs : List Char) :
    firstMatch? tokenRules (c :: cs) = firstMatch? wordRules (c :: cs) := by
  simp only [isSymbolChar, Bool.and_eq_true, Bool.not_eq_true'] at hc
  exact firstMatch?_of_not_mark (by simp [hc]) hc.1.1.1 cs

theorem takeWhile_append_of_head {test : Char → Bool} {w : List Char} (hw : ∀ c ∈ w, test c)
    (hrest : ∀ c ∈ rest.head?, test c = false) : (w ++ rest).takeWhile test = w := by
  rw [List.takeWhile_append_of_pos hw]
  cases rest with
  | nil => simp
  | cons c rest => simp [hrest c rfl]

theorem firstMatch?_symbol {c : Char} {cs : List Char} (h : isSymbolStart c) :
    firstMatch? tokenRules (c :: cs) =
      some (⟨.symbol, .symbol, true⟩, ((c :: cs).takeWhile isSymbolChar).length) := by
  have hwidth := Pattern.symbol_width_cons c cs
  rw [if_pos h] at hwidth
  simp only [isSymbolStart, Bool.and_eq_true, Bool.not_eq_true'] at h
  have hdigit : c.isDigit = false :=
    Bool.eq_false_iff.mpr fun hd => by simp [isDecimalDigit_of_isDigit hd] at h
  have hnumeral : Pattern.numeral.width (c :: cs) = 0 := by
    have hne : c ≠ '0' := by
      rintro rfl
      simp at hdigit
    rw [Pattern.numeral_width (by simp [List.isPrefixOf, hne.symm]), List.takeWhile_cons, hdigit]
    rfl
  rw [firstMatch?_of_isSymbolChar h.1]
  simp only [wordRules, tokenRules, List.drop_succ_cons, List.drop_zero, firstMatch?, hnumeral, hwidth,
    List.takeWhile_cons, h.1, if_true, List.length_cons]

theorem firstMatch?_number {c : Char} {w : List Char} (hw : ∀ d ∈ c :: w, d.isDigit)
    (hrest : ∀ d ∈ rest.head?, isSymbolChar d = false) :
    firstMatch? tokenRules (c :: (w ++ rest)) =
      some (⟨.numeral, .number, true⟩, w.length + 1) := by
  have hend : ∀ d ∈ rest.head?, d.isDigit = false := fun d hd =>
    Bool.eq_false_iff.mpr fun hdigit => by
      simpa [hrest d hd] using isSymbolChar_of_isDigit hdigit
  have hhex : ['0', 'x'].isPrefixOf (c :: (w ++ rest)) = false := by
    have hx : ∀ d ∈ (w ++ rest).head?, d ≠ 'x' := by
      rintro d hd rfl
      cases w with
      | nil => exact absurd (hrest 'x' hd) (by decide)
      | cons e w =>
          obtain rfl : e = 'x' := by simpa using hd
          exact absurd (hw 'x' (by simp)) (by decide)
    cases hwr : w ++ rest with
    | nil => simp [List.isPrefixOf]
    | cons d ds => simp [List.isPrefixOf, (hx d (by simp [hwr])).symm]
  have hnumeral : Pattern.numeral.width (c :: (w ++ rest)) = w.length + 1 := by
    rw [Pattern.numeral_width hhex, ← List.cons_append, takeWhile_append_of_head hw hend,
      List.length_cons]
  rw [firstMatch?_of_isSymbolChar (isSymbolChar_of_isDigit (hw c (by simp)))]
  simp only [wordRules, tokenRules, List.drop_succ_cons, List.drop_zero, firstMatch?, hnumeral]

theorem Spells.symbol {text : String} (hl : (Lexeme.symbol text).Spellable)
    (hrest : ∀ c ∈ rest.head?, isSymbolChar c = false) (h : Spells rest lexemes) :
    Spells (text.toList ++ rest) (.symbol text :: lexemes) := by
  obtain ⟨hhead, hall⟩ := hl
  obtain ⟨c, hc, hstart⟩ := (Option.any_eq_true ..).mp hhead
  obtain ⟨w, htext⟩ := List.head?_eq_some_iff.mp hc
  rw [htext] at hall ⊢
  refine .piece (r := ⟨.symbol, .symbol, true⟩) (isBlank_of_isSymbolChar (hall c (by simp))) ?_
    (fun span => ?_) h
  · rw [firstMatch?_symbol hstart, ← List.cons_append, takeWhile_append_of_head hall hrest,
      List.length_cons]
  · simp [scanned, Lexeme.ofKind, ← htext]

theorem Spells.number {value : Int64} (hl : 0 ≤ value)
    (hrest : ∀ c ∈ rest.head?, isSymbolChar c = false) (h : Spells rest lexemes) :
    Spells ((toString value.toInt).toList ++ rest) (.number value :: lexemes) := by
  have hvalue : value.toInt = value.toNatClampNeg := (Int64.cast_toNatClampNeg value hl).symm
  have htext : (toString value.toInt).toList = Nat.toDigits 10 value.toNatClampNeg := by
    rw [hvalue]
    exact Nat.toList_repr
  have hdigits : ∀ c ∈ Nat.toDigits 10 value.toNatClampNeg, c.isDigit := fun _ hc =>
    Text.isDigit_of_mem_toDigits hc
  have hread := Text.numeral?_toDigits (Nat.le_of_lt_succ value.toNatClampNeg_lt)
  rw [Int64.ofNat_toNatClampNeg value hl] at hread
  rw [htext]
  cases hd : Nat.toDigits 10 value.toNatClampNeg with
  | nil => exact absurd hd Nat.toDigits_ne_nil
  | cons c w =>
      rw [hd] at hdigits hread
      refine .piece (isBlank_of_isSymbolChar (isSymbolChar_of_isDigit (hdigits c (by simp))))
        (firstMatch?_number hdigits hrest) (fun span => ?_) h
      simp only [scanned, hread]

theorem Spells.lexeme {l : Lexeme} (hl : l.Spellable)
    (hrest : ∀ c ∈ rest.head?, isSymbolChar c = false) (h : Spells rest lexemes) :
    Spells (l.text.toList ++ rest) (l :: lexemes) := by
  cases l with
  | number value => exact .number hl hrest h
  | symbol text => exact .symbol hl hrest h
  | opener d => simpa [Lexeme.text] using h.opener d
  | closer d => simpa [Lexeme.text] using h.closer d
  | sigil s => simpa [Lexeme.text] using h.sigil s

theorem spellable_of_markRules {r : Rule TokenKind} (hr : r ∈ markRules) (span : Span)
    (text : List Char) : ∃ l : Lexeme, scanned r.tag span text = .ok ⟨l, span⟩ ∧ l.Spellable := by
  have hmarks : ∀ r ∈ markRules,
      ∃ l : Lexeme, scanned r.tag span text = .ok ⟨l, span⟩ ∧ l.Spellable := by
    simp only [markRules, tokenRules, List.take_succ_cons, List.take_zero, List.forall_mem_cons]
    refine ⟨?_, ?_, ?_, ?_, ?_, ?_, ?_, ?_, ?_, ?_, ?_, by simp⟩ <;> exact ⟨_, rfl, trivial⟩
  exact hmarks r hr

theorem spellable_of_scanned {c : Char} (hc : Text.isBlank c = false) {cs : List Char}
    {r : Rule TokenKind} {n : Nat} (hm : firstMatch? tokenRules (c :: cs) = some (r, n)) {span : Span}
    {t : Token} (ht : scanned r.tag span ((c :: cs).take n) = .ok t) : t.lexeme.Spellable := by
  obtain ⟨hr, hn, hpos⟩ := Lexer.firstMatch?_spec hm
  rw [tokenRules_eq, List.mem_append, List.mem_cons] at hr
  rcases hr with hr | rfl | hr
  · obtain ⟨l, hl, hspell⟩ := spellable_of_markRules hr span ((c :: cs).take n)
    cases hl.symm.trans ht
    exact hspell
  · exact absurd rfl (firstMatch?_tag hc hm).1
  · simp only [wordRules, tokenRules, List.drop_succ_cons, List.drop_zero, List.mem_cons,
      List.not_mem_nil, or_false] at hr
    rcases hr with rfl | rfl | rfl
    · simp only [scanned] at ht
      split at ht
      · next value hvalue =>
          cases ht
          exact Text.nonneg_of_numeral? hvalue
      · cases ht
    · rw [Pattern.symbol_width_cons] at hn
      split at hn
      · next hstart =>
          have htake : (c :: cs).take n = (c :: cs).takeWhile isSymbolChar := by
            rw [← hn]
            exact (List.prefix_iff_eq_take.mp (List.takeWhile_prefix _)).symm
          rw [htake] at ht
          cases ht
          refine ⟨?_, fun d hd => ?_⟩
          · simp [isSymbolChar_of_isSymbolStart hstart, hstart]
          · rw [String.toList_ofList] at hd
            exact List.all_eq_true.mp List.all_takeWhile d hd
      · omega
    · exact absurd rfl (firstMatch?_tag hc hm).2

theorem Scans.spellable {p : Position} {cs : List Char} {found : List Scanned} (h : Scans p cs found)
    {t : Token} (ht : .ok t ∈ found) : t.lexeme.Spellable := by
  induction h with
  | nil => cases ht
  | blank _ _ ih => exact ih ht
  | piece hc hm _ ih =>
      rcases List.mem_cons.mp ht with ht | ht
      · exact spellable_of_scanned hc hm ht.symm
      · exact ih ht
  | stray _ _ _ ih =>
      rcases List.mem_cons.mp ht with ht | ht
      · cases ht
      · exact ih ht

end Scanner

end SmallLisp
