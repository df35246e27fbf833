import SmallLisp.Proofs.Token.Munch
import Mathlib.Data.List.Pairwise

namespace SmallLisp

namespace Munch

theorem first_initial (c : Char) (cs : List Char) : (first c cs).1 <+: c :: cs := by
  rcases first_cases c cs with ⟨_, _, hfirst⟩ | ⟨_, hfirst⟩ | ⟨_, hfirst⟩ | ⟨_, _, _, hfirst⟩
  · simp [hfirst]
  · rw [hfirst]
    exact numeral_initial _
  · rw [hfirst]
    exact List.takeWhile_prefix _
  · simp [hfirst]

theorem runs_eq_append_cons {p : Position} {cs : List Char} {after : List Scanned} {i : Scanned} :
    ∀ before, runs p cs = before ++ i :: after → ∃ pre c rest, cs = pre ++ c :: rest ∧
      Text.isBlank c = false ∧
      i = (first c rest).2 ⟨p.advance pre, p.advance (pre ++ (first c rest).1)⟩ ∧
      after = runs (p.advance (pre ++ (first c rest).1))
        ((c :: rest).drop (first c rest).1.length) := by
  fun_induction runs p cs with
  | case1 p =>
      intro before h
      simp at h
  | case2 p c cs _ ih =>
      intro before h
      obtain ⟨pre, d, rest, rfl, hd, rfl, rfl⟩ := ih before h
      exact ⟨c :: pre, d, rest, rfl, hd, rfl, rfl⟩
  | case3 p c cs hc run ih =>
      intro before h
      cases before with
      | nil =>
          obtain ⟨rfl, rfl⟩ := List.cons.inj h
          exact ⟨[], c, cs, rfl, by simpa using hc, rfl, rfl⟩
      | cons j before =>
          obtain ⟨pre, d, rest, hrest, hd, rfl, rfl⟩ := ih before (List.cons.inj h).2
          have hcs : c :: cs = run ++ pre ++ d :: rest := by
            rw [List.append_assoc, ← hrest]
            exact (List.prefix_iff_eq_append.mp (first_initial c cs)).symm
          exact ⟨run ++ pre, d, rest, hcs, hd, by simp only [List.append_assoc, Position.advance_append],
            by simp only [List.append_assoc, Position.advance_append]⟩

theorem exists_of_mem_runs {p : Position} {cs : List Char} {i : Scanned} (hi : i ∈ runs p cs) :
    ∃ pre c rest, cs = pre ++ c :: rest ∧ Text.isBlank c = false ∧
      i = (first c rest).2 ⟨p.advance pre, p.advance (pre ++ (first c rest).1)⟩ := by
  obtain ⟨before, after, h⟩ := List.append_of_mem hi
  obtain ⟨pre, c, rest, hcs, hc, hi, _⟩ := runs_eq_append_cons before h
  exact ⟨pre, c, rest, hcs, hc, hi⟩

/-- A control character that is no blank, or a digit of another script. -/
def StartsNothing (c : Char) : Prop :=
  (Text.isControl c ∧ ¬Text.isBlank c) ∨ (Text.isDecimalDigit c ∧ ¬c.isDigit)

instance (c : Char) : Decidable (StartsNothing c) :=
  inferInstanceAs (Decidable ((_ ∧ ¬_) ∨ (_ ∧ ¬_)))

theorem not_startsNothing_of_single? {c : Char} {lexeme : Lexeme} (h : single? c = some lexeme) :
    ¬StartsNothing c := by
  unfold single? at h
  split at h <;> cases h <;> decide

theorem not_startsNothing_of_isHexDigit {c : Char} (h : Text.isHexDigit c) : ¬StartsNothing c :=
  Text.forall_isHexDigit (P := fun c => ¬StartsNothing c) (by decide +kernel) h

theorem isHexDigit_of_isDigit {c : Char} (h : c.isDigit) : Text.isHexDigit c :=
  Text.forall_isDigit (P := fun c => Text.isHexDigit c) (by decide) h

theorem not_startsNothing_of_mem_numeral {cs : List Char} {d : Char} (hd : d ∈ (numeral cs).1) :
    ¬StartsNothing d := by
  unfold numeral hexRun at hd
  split at hd
  · exact not_startsNothing_of_isHexDigit
      (isHexDigit_of_isDigit (List.all_eq_true.mp List.all_takeWhile d hd))
  · next e es hrun =>
      rcases List.mem_cons.mp hd with rfl | hd
      · decide
      · rcases List.mem_cons.mp hd with rfl | hd
        · decide
        · rw [← hrun] at hd
          split at hd
          · exact not_startsNothing_of_isHexDigit (List.all_eq_true.mp List.all_takeWhile d hd)
          · cases hd

theorem first_of_mem {c d : Char} {cs : List Char} (hd : d ∈ (first c cs).1) (h : StartsNothing d) :
    first c cs = ([d], invalid d) ∨
      (Text.isControl d = false ∧ ∃ l, ∀ span, (first c cs).2 span = .ok ⟨l, span⟩) := by
  rcases first_cases c cs with ⟨_, hsingle, hfirst⟩ | ⟨_, hfirst⟩ | ⟨_, hfirst⟩ | ⟨_, _, _, hfirst⟩
  · rw [hfirst, List.mem_singleton] at hd
    exact absurd (hd ▸ h) (not_startsNothing_of_single? hsingle)
  · rw [hfirst] at hd
    exact absurd h (not_startsNothing_of_mem_numeral hd)
  · rw [hfirst] at hd ⊢
    have hsymbol : isSymbolChar d := List.all_eq_true.mp List.all_takeWhile d hd
    simp only [isSymbolChar, Bool.and_eq_true, Bool.not_eq_true'] at hsymbol
    exact .inr ⟨hsymbol.1.1.2, _, fun _ => rfl⟩
  · rw [hfirst, List.mem_singleton] at hd
    subst hd
    exact .inl hfirst

theorem first_invalid {c : Char} {cs : List Char} {span span' : Span} {code : Int}
    (hc : Text.isBlank c = false) (h : (first c cs).2 span = .error ⟨.invalidChar code, span'⟩) :
    StartsNothing c ∧ first c cs = ([c], invalid c) := by
  rcases first_cases c cs with ⟨_, _, hfirst⟩ | ⟨_, hfirst⟩ | ⟨_, hfirst⟩ |
    ⟨hsingle, hdigit, hstart, hfirst⟩
  · rw [hfirst] at h
    cases h
  · simp only [hfirst, number] at h
    split at h <;> cases h
  · rw [hfirst] at h
    cases h
  · refine ⟨?_, hfirst⟩
    have hmark := mark_of_single? hsingle
    rw [Bool.or_eq_false_iff] at hmark
    simp only [isSymbolStart, isSymbolChar, hc, hmark, Bool.not_false, Bool.true_and, Bool.and_true,
      Bool.and_eq_false_iff, Bool.not_eq_false'] at hstart
    rcases hstart with hcontrol | hdecimal
    · exact .inl ⟨hcontrol, by simp [hc]⟩
    · exact .inr ⟨hdecimal, by simp [hdigit]⟩

theorem span_first (c : Char) (cs : List Char) (span : Span) :
    Scanned.span ((first c cs).2 span) = span := by
  rcases first_cases c cs with ⟨_, _, hfirst⟩ | ⟨_, hfirst⟩ | ⟨_, hfirst⟩ | ⟨_, _, _, hfirst⟩
  · rw [hfirst]
    rfl
  · simp only [hfirst, number]
    split <;> rfl
  · rw [hfirst]
    rfl
  · rw [hfirst]
    rfl

def strayAt (text : List Char) (k : Nat) (c : Char) : TokenError :=
  ⟨.invalidChar c.toNat, ⟨.behind text k, .behind text (k + 1)⟩⟩

theorem strayAt_length (pre rest : List Char) (c d : Char) :
    strayAt (pre ++ c :: rest) pre.length d =
      ⟨.invalidChar d.toNat, ⟨.advance .start pre, .advance .start (pre ++ [c])⟩⟩ := by
  simp [strayAt, Position.behind, List.take_append, List.take_of_length_le]

theorem strayAt_inj {text : List Char} {j k : Nat} {c d : Char} (hj : j < text.length)
    (hk : k < text.length) (h : strayAt text j c = strayAt text k d) : j = k := by
  have hoffset : (Position.behind text j).offset = (Position.behind text k).offset := by
    rw [(Span.mk.inj (TokenError.mk.inj h).2).1]
  rw [Position.behind_offset (Nat.le_of_lt hj), Position.behind_offset (Nat.le_of_lt hk)] at hoffset
  exact Int.ofNat.inj hoffset

theorem exists_of_invalid_mem_scan {text : List Char} {e : TokenError} {code : Int}
    (he : .error e ∈ scan text) (hcode : e.cause = .invalidChar code) :
    ∃ k c, text[k]? = some c ∧ StartsNothing c ∧ e = strayAt text k c := by
  rw [scan_eq_runs] at he
  obtain ⟨pre, c, rest, rfl, hc, hi⟩ := exists_of_mem_runs he
  obtain ⟨cause, span⟩ := e
  obtain rfl : cause = .invalidChar code := hcode
  obtain ⟨hnothing, hfirst⟩ := first_invalid hc hi.symm
  refine ⟨pre.length, c, by simp, hnothing, ?_⟩
  rw [hfirst] at hi
  rw [strayAt_length]
  exact Except.error.inj hi

theorem isBlank_of_isDecimalDigit {c : Char} (h : Text.isDecimalDigit c) :
    Text.isBlank c = false := by
  have hall : ∀ z ∈ Text.zeroDigits, ∀ i < 10, Text.isBlank (Char.ofNat (z + i)) = false := by
    decide +kernel
  obtain ⟨z, hz, hrange⟩ := List.any_eq_true.mp h
  simp only [Bool.and_eq_true, decide_eq_true_eq] at hrange
  have hc := hall z hz (c.toNat - z) (by omega)
  rwa [Nat.add_sub_cancel' hrange.1, Char.ofNat_toNat] at hc

theorem isBlank_of_startsNothing {c : Char} (h : StartsNothing c) : Text.isBlank c = false := by
  rcases h with ⟨_, hblank⟩ | ⟨hdigit, _⟩
  · simpa using hblank
  · exact isBlank_of_isDecimalDigit hdigit

theorem exists_holds {text : List Char} {k : Nat} {c : Char} (hk : text[k]? = some c)
    (hc : Text.isBlank c = false) : ∃ i ∈ scan text, i.span.Holds k := by
  by_contra hnone
  have hblank := (Scanner.scan_scans text).blank_of_not_holds Scanner.advance_start (Nat.zero_le k)
    hk (fun i hi hholds => hnone ⟨i, hi, hholds⟩)
  simp [hc] at hblank

theorem stray_mem_scan {text : List Char} {k : Nat} {c : Char} (hk : text[k]? = some c)
    (hc : StartsNothing c)
    (hfree : Text.isControl c = false → ∀ t : Token, .ok t ∈ scan text → ¬t.span.Holds k) :
    .error (strayAt text k c) ∈ scan text := by
  obtain ⟨i, hi, hholds⟩ := exists_holds hk (isBlank_of_startsNothing hc)
  have hmem := hi
  rw [scan_eq_runs] at hmem
  obtain ⟨pre, d, rest, rfl, _, rfl⟩ := exists_of_mem_runs hmem
  rw [span_first, Span.Holds, Position.advance_start_offset, Position.advance_start_offset,
    List.length_append] at hholds
  -- The character is one of those that the token or error covers.
  obtain ⟨post, hpost⟩ := first_initial d rest
  have hrun : c ∈ (first d rest).1 := by
    rw [← hpost, List.getElem?_append_right (by omega), List.getElem?_append_left (by omega)] at hk
    exact List.mem_of_getElem? hk
  rcases first_of_mem hrun hc with hfirst | ⟨hcontrol, l, htoken⟩
  · rw [hfirst] at hi hholds
    obtain rfl : k = pre.length := by
      simp only [List.length_singleton] at hholds
      omega
    have hcd : d = c := by simpa using hk
    subst hcd
    rw [strayAt_length]
    exact hi
  · rw [htoken] at hi
    refine absurd ?_ (hfree hcontrol _ hi)
    rw [Span.Holds, Position.advance_start_offset, Position.advance_start_offset, List.length_append]
    exact hholds

end Munch

def Scanned.Apart (i j : Scanned) : Prop :=
  i.span.stop.offset ≤ j.span.start.offset ∨ j.span.stop.offset ≤ i.span.start.offset

instance : Std.Symm Scanned.Apart := ⟨fun _ _ => Or.symm⟩

namespace Munch

theorem apart_of_mem_scan {text : List Char} {i j : Scanned} (hi : i ∈ scan text)
    (hj : j ∈ scan text) (hne : i ≠ j) : i.Apart j := by
  have hpairs := (Scanner.scan_scans text).pairwise Scanner.advance_start
  have hapart : (scan text).Pairwise Scanned.Apart := hpairs.imp Or.inl
  exact hapart.forall hi hj hne

theorem not_holds_of_stray {text : List Char} {k : Nat} {c : Char} (hk : k < text.length)
    (hstray : .error (strayAt text k c) ∈ scan text) {t : Token}
    (ht : .ok t ∈ scan text) : ¬t.span.Holds k := by
  rintro ⟨hstart, hstop⟩
  have hapart := apart_of_mem_scan ht hstray (by simp)
  simp only [Scanned.Apart, Scanned.span, strayAt, Position.behind_offset (Nat.le_of_lt hk),
    Position.behind_offset (Nat.succ_le_of_lt hk)] at hapart
  omega

theorem stray_mem_iff {text : List Char} {k : Nat} {c : Char} (hk : text[k]? = some c) :
    .error (strayAt text k c) ∈ scan text ↔
      (Text.isControl c ∧ ¬Text.isBlank c) ∨
        (Text.isDecimalDigit c ∧ ¬c.isDigit ∧
          ∀ t : Token, .ok t ∈ scan text → ¬t.span.Holds k) := by
  obtain ⟨hlt, _⟩ := List.getElem?_eq_some_iff.mp hk
  constructor
  · intro hstray
    obtain ⟨j, d, hj, hnothing, heq⟩ := exists_of_invalid_mem_scan hstray rfl
    obtain ⟨hlt', _⟩ := List.getElem?_eq_some_iff.mp hj
    obtain rfl := strayAt_inj hlt hlt' heq
    obtain rfl : c = d := Option.some.inj (hk.symm.trans hj)
    rcases hnothing with hcontrol | ⟨hdecimal, hdigit⟩
    · exact .inl hcontrol
    · exact .inr ⟨hdecimal, hdigit, fun t ht => not_holds_of_stray hlt hstray ht⟩
  · rintro (hcontrol | ⟨hdecimal, hdigit, hfree⟩)
    · refine stray_mem_scan hk (.inl hcontrol) fun hfalse => ?_
      simp [hcontrol.1] at hfalse
    · exact stray_mem_scan hk (.inr ⟨hdecimal, hdigit⟩) fun _ => hfree

/-- The tokens and errors of a text are its longest runs by classes of characters. The characters
reported as invalid are just the control characters that are no blanks, and the digits of other scripts
that no token covers. -/
theorem tokens_are_longest_runs (text : List Char) :
    (scan text = runs .start text ∧ tokenize text = split text) ∧
      (∀ k c, text[k]? = some c →
        (strayAt text k c ∈ (tokenize text).2 ↔
          (Text.isControl c ∧ ¬Text.isBlank c) ∨
            (Text.isDecimalDigit c ∧ ¬c.isDigit ∧
              ∀ t ∈ (tokenize text).1, ¬t.span.Holds k))) ∧
      ∀ e ∈ (tokenize text).2, ∀ code, e.cause = .invalidChar code →
        ∃ k c, text[k]? = some c ∧ e = strayAt text k c := by
  refine ⟨⟨scan_eq_runs text, tokenize_eq_split text⟩, ?_, ?_⟩
  · intro k c hk
    simp only [Scanner.mem_errors_iff, Scanner.mem_tokens_iff]
    exact stray_mem_iff hk
  · intro e he code hcode
    obtain ⟨k, c, hk, _, rfl⟩ := exists_of_invalid_mem_scan (Scanner.mem_errors_iff.mp he) hcode
    exact ⟨k, c, hk, rfl⟩

theorem tokens_are_longest_runs_of_two_digits :
    -- A numeral, a symbol, a control character, a symbol with a digit of another script, and that
    -- digit on its own.
    let text := ['0', 'x', Char.ofNat 1, 'a', '٣', ' ', '٣']
    (text[4]? = some '٣' ∧ strayAt text 4 '٣' ∉ (tokenize text).2) ∧
      (text[6]? = some '٣' ∧ strayAt text 6 '٣' ∈ (tokenize text).2) := by
  intro text
  obtain ⟨_, hstray, _⟩ := tokens_are_longest_runs text
  have hwithin : ∃ t ∈ (tokenize text).1, t.span.Holds 4 := by decide +kernel
  have halone : ∀ t ∈ (tokenize text).1, ¬t.span.Holds 6 := by decide +kernel
  refine ⟨⟨rfl, ?_⟩, rfl, ?_⟩
  · rw [hstray 4 '٣' rfl]
    rintro (⟨hcontrol, _⟩ | ⟨_, _, hfree⟩)
    · exact absurd hcontrol (by decide)
    · obtain ⟨t, ht, hholds⟩ := hwithin
      exact hfree t ht hholds
  · rw [hstray 6 '٣' rfl]
    exact .inr ⟨by decide, by decide, halone⟩

end Munch

end SmallLisp
