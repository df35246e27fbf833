import SmallLisp.Proofs.Lex.Pattern
import SmallLisp.Token.Scanner

/-!
What is found in a text: a relation beside the scanner that takes one blank, one piece or one stray
character at a time. The scanner finds exactly that. Where a text starts shows in positions only, and
in two texts with a newline between them is found what is found in the one and then in the other.
-/
namespace SmallLisp

def Span.nowhere : Span := ⟨.start, .start⟩

def Token.bare (t : Token) : Token := { t with span := .nowhere }

def TokenError.bare (e : TokenError) : TokenError := { e with span := .nowhere }

def Scanned.bare : Scanned → Scanned
  | .ok t => .ok t.bare
  | .error e => .error e.bare

namespace Lexer

variable {τ : Type}

theorem firstMatch?_congr {rules : List (Rule τ)} {cs ds : List Char}
    (h : ∀ r ∈ rules, r.pattern.width cs = r.pattern.width ds) :
    firstMatch? rules cs = firstMatch? rules ds := by
  induction rules with
  | nil => rfl
  | cons r rules ih =>
      simp only [firstMatch?, h r (by simp), ih fun q hq => h q (List.mem_cons_of_mem r hq)]

theorem firstMatch?_spec {rules : List (Rule τ)} {cs : List Char} {r : Rule τ} {n : Nat}
    (h : firstMatch? rules cs = some (r, n)) : r ∈ rules ∧ r.pattern.width cs = n ∧ 0 < n := by
  induction rules with
  | nil => cases h
  | cons q rules ih =>
      simp only [firstMatch?] at h
      split at h
      · obtain ⟨hr, hn⟩ := ih h
        exact ⟨List.mem_cons_of_mem q hr, hn⟩
      · next k hk =>
          cases h
          exact ⟨by simp, hk, Nat.succ_pos k⟩

theorem firstMatch?_cons_of_width {rules : List (Rule τ)} {cs : List Char} {r : Rule τ}
    (h : 0 < r.pattern.width cs) :
    firstMatch? (r :: rules) cs = some (r, r.pattern.width cs) := by
  simp only [firstMatch?]
  split
  · next h0 => omega
  · next n hn => rw [hn]

theorem firstMatch?_append_of_width_eq_zero {rules others : List (Rule τ)} {cs : List Char}
    (h : ∀ r ∈ rules, r.pattern.width cs = 0) :
    firstMatch? (rules ++ others) cs = firstMatch? others cs := by
  induction rules with
  | nil => rfl
  | cons r rules ih =>
      simp only [List.cons_append, firstMatch?, h r (by simp)]
      exact ih fun q hq => h q (List.mem_cons_of_mem r hq)

end Lexer

namespace Scanner

open Lexer (firstMatch?)

def blankRule : Rule TokenKind := ⟨.blanks, .blank, false⟩

theorem blanks_width_cons {c : Char} (h : Text.isBlank c) (cs : List Char) :
    Pattern.blanks.width (c :: cs) = Pattern.blanks.width cs + 1 := by
  simp [Pattern.blanks, Pattern.width, Pattern.repeatWidth, h]

theorem blanks_width_of_not_blank {c : Char} (h : Text.isBlank c = false) (cs : List Char) :
    Pattern.blanks.width (c :: cs) = 0 := by
  simp [Pattern.blanks, Pattern.width, Pattern.repeatWidth, h]

def markRules : List (Rule TokenKind) := tokenRules.take 11

def wordRules : List (Rule TokenKind) := tokenRules.drop 12

theorem tokenRules_eq : tokenRules = markRules ++ blankRule :: wordRules := rfl

theorem markRules_literal {r : Rule TokenKind} (hr : r ∈ markRules) :
    ∃ d, r.pattern = .literal [d] ∧ (isBracket d || isSigil d) ∧ Text.isBlank d = false := by
  have hlit : ∀ r ∈ markRules,
      ∃ d, r.pattern = .literal [d] ∧ (isBracket d || isSigil d) ∧ Text.isBlank d = false := by
    simp only [markRules, tokenRules, List.take_succ_cons, List.take_zero, List.forall_mem_cons]
    refine ⟨⟨_, rfl, ?_⟩, ⟨_, rfl, ?_⟩, ⟨_, rfl, ?_⟩, ⟨_, rfl, ?_⟩, ⟨_, rfl, ?_⟩, ⟨_, rfl, ?_⟩,
      ⟨_, rfl, ?_⟩, ⟨_, rfl, ?_⟩, ⟨_, rfl, ?_⟩, ⟨_, rfl, ?_⟩, ⟨_, rfl, ?_⟩, by simp⟩ <;> decide
  exact hlit r hr

theorem markRules_avoid_blanks {r : Rule TokenKind} (hr : r ∈ markRules) {c : Char}
    (hc : Text.isBlank c) : r.pattern.avoids c := by
  obtain ⟨d, hd, _, hb⟩ := markRules_literal hr
  have hne : c ≠ d := fun e => by simp [e, hb] at hc
  simp [hd, Pattern.avoids, hne]

theorem avoids_newline {r : Rule TokenKind} (hr : r ∈ markRules ∨ r ∈ wordRules) :
    r.pattern.avoids '\n' := by
  have h : (markRules ++ wordRules).all fun r => r.pattern.avoids '\n' := by decide
  exact List.all_eq_true.mp h r (List.mem_append.mpr hr)

theorem tag_ne_blank {r : Rule TokenKind} (hr : r ∈ markRules ∨ r ∈ wordRules) :
    r.tag ≠ .blank := by
  have h : (markRules ++ wordRules).all fun r => r.tag ≠ .blank := by decide
  simpa using List.all_eq_true.mp h r (List.mem_append.mpr hr)

theorem pattern_of_endOfText {r : Rule TokenKind} (hr : r ∈ tokenRules) (ht : r.tag = .endOfText) :
    r.pattern = .eof := by
  have h : ∀ r ∈ tokenRules, r.tag = .endOfText → r.pattern = .eof := by
    simp [tokenRules]
  exact h r hr ht

theorem firstMatch?_blank {c : Char} (hc : Text.isBlank c) (cs : List Char) :
    firstMatch? tokenRules (c :: cs) = some (blankRule, Pattern.blanks.width cs + 1) := by
  have hm : ∀ r ∈ markRules, r.pattern.width (c :: cs) = 0 :=
    fun r hr => Pattern.width_of_avoids (markRules_avoid_blanks hr hc) cs
  have hb := blanks_width_cons hc cs
  rw [tokenRules_eq, Lexer.firstMatch?_append_of_width_eq_zero hm,
    Lexer.firstMatch?_cons_of_width (by simp [blankRule, hb])]
  simp [blankRule, hb]

theorem firstMatch?_append_newline {c : Char} (hc : Text.isBlank c = false) (cs rest : List Char) :
    firstMatch? tokenRules (c :: cs ++ '\n' :: rest) = firstMatch? tokenRules (c :: cs) := by
  apply Lexer.firstMatch?_congr
  intro r hr
  rw [tokenRules_eq, List.mem_append, List.mem_cons] at hr
  rcases hr with hr | rfl | hr
  · exact Pattern.width_append (avoids_newline (.inl hr)) c cs rest
  · exact (blanks_width_of_not_blank hc _).trans (blanks_width_of_not_blank hc _).symm
  · exact Pattern.width_append (avoids_newline (.inr hr)) c cs rest

theorem firstMatch?_tag {c : Char} (hc : Text.isBlank c = false) {cs : List Char}
    {r : Rule TokenKind} {n : Nat} (h : firstMatch? tokenRules (c :: cs) = some (r, n)) :
    r.tag ≠ .blank ∧ r.tag ≠ .endOfText := by
  obtain ⟨hr, hn, hpos⟩ := Lexer.firstMatch?_spec h
  refine ⟨?_, ?_⟩
  · have hmem := hr
    rw [tokenRules_eq, List.mem_append, List.mem_cons] at hmem
    rcases hmem with hm | rfl | hm
    · exact tag_ne_blank (.inl hm)
    · have h0 := blanks_width_of_not_blank hc cs
      simp only [blankRule] at hn
      omega
    · exact tag_ne_blank (.inr hm)
  · intro ht
    rw [pattern_of_endOfText hr ht] at hn
    simp only [Pattern.width] at hn
    omega

theorem width_le_of_firstMatch? {c : Char} {cs : List Char} {r : Rule TokenKind} {n : Nat}
    (h : firstMatch? tokenRules (c :: cs) = some (r, n)) : 0 < n ∧ n ≤ (c :: cs).length := by
  obtain ⟨_, hn, hpos⟩ := Lexer.firstMatch?_spec h
  have hle := Pattern.width_le r.pattern c cs
  rw [hn] at hle
  exact ⟨hpos, hle⟩

theorem bare_scanned (kind : TokenKind) (span : Span) (text : List Char) :
    Scanned.bare (scanned kind span text) = scanned kind .nowhere text := by
  unfold scanned
  split
  · split <;> rfl
  · rfl

theorem advance_piece {c : Char} (hc : Text.isBlank c = false) {cs : List Char} {r : Rule TokenKind}
    {n : Nat} (hm : firstMatch? tokenRules (c :: cs) = some (r, n)) (pos : Position) :
    (if r.inline then pos.advanceColumns ((c :: cs).take n).length
      else pos.advance ((c :: cs).take n)) = pos.advance ((c :: cs).take n) := by
  obtain ⟨hr, rfl, hpos⟩ := Lexer.firstMatch?_spec hm
  have havoid : r.pattern.avoids '\n' := by
    rw [tokenRules_eq, List.mem_append, List.mem_cons] at hr
    rcases hr with hr | rfl | hr
    · exact avoids_newline (.inl hr)
    · simp [blankRule, blanks_width_of_not_blank hc] at hpos
    · exact avoids_newline (.inr hr)
  split
  · exact (pos.advance_eq_advanceColumns _ (Pattern.not_mem_take_width havoid _)).symm
  · rfl

inductive Scans : Position → List Char → List Scanned → Prop
  | nil {p : Position} : Scans p [] []
  | blank {p : Position} {c : Char} {cs : List Char} {found : List Scanned} :
      Text.isBlank c → Scans (p.step c) cs found → Scans p (c :: cs) found
  | piece {p : Position} {c : Char} {cs : List Char} {r : Rule TokenKind} {n : Nat}
      {found : List Scanned} :
      Text.isBlank c = false → firstMatch? tokenRules (c :: cs) = some (r, n) →
      Scans (p.advance ((c :: cs).take n)) ((c :: cs).drop n) found →
      Scans p (c :: cs) (scanned r.tag ⟨p, p.advance ((c :: cs).take n)⟩ ((c :: cs).take n) :: found)
  | stray {p : Position} {c : Char} {cs : List Char} {found : List Scanned} :
      Text.isBlank c = false → firstMatch? tokenRules (c :: cs) = none → Scans (p.step c) cs found →
      Scans p (c :: cs) (.error ⟨.invalidChar c.toNat, ⟨p, p.step c⟩⟩ :: found)

theorem Scans.agree {p q : Position} {cs : List Char} {found found' : List Scanned}
    (h : Scans p cs found) (h' : Scans q cs found') :
    found.map Scanned.bare = found'.map Scanned.bare ∧ (p = q → found = found') := by
  induction h generalizing q found' with
  | nil =>
      cases h'
      exact ⟨rfl, fun _ => rfl⟩
  | blank hc _ ih =>
      cases h' with
      | blank _ h' =>
          obtain ⟨hb, he⟩ := ih h'
          exact ⟨hb, fun hpq => he (by rw [hpq])⟩
      | piece hn _ _ => simp [hc] at hn
      | stray hn _ _ => simp [hc] at hn
  | piece hc hm _ ih =>
      cases h' with
      | blank hb _ => simp [hc] at hb
      | piece _ hm' h' =>
          rw [hm] at hm'
          cases hm'
          obtain ⟨hb, he⟩ := ih h'
          refine ⟨by simp only [List.map_cons, bare_scanned, hb], ?_⟩
          rintro rfl
          rw [he rfl]
      | stray _ hm' _ => simp [hm] at hm'
  | stray hc hm _ ih =>
      cases h' with
      | blank hb _ => simp [hc] at hb
      | piece _ hm' _ => simp [hm] at hm'
      | stray _ _ h' =>
          obtain ⟨hb, he⟩ := ih h'
          refine ⟨by simp only [List.map_cons, hb]; rfl, ?_⟩
          rintro rfl
          rw [he rfl]

theorem Scans.append_newline {p : Position} {cs ds : List Char} {found found' : List Scanned}
    (h : Scans p cs found) (h' : Scans ((p.advance cs).step '\n') ds found') :
    Scans p (cs ++ '\n' :: ds) (found ++ found') := by
  induction h with
  | nil => exact .blank Text.isBlank_newline h'
  | blank hc _ ih => exact .blank hc (ih h')
  | @piece p c cs r n found hc hm _ ih =>
      have hle := (width_le_of_firstMatch? hm).2
      have ht : (c :: cs ++ '\n' :: ds).take n = (c :: cs).take n :=
        List.take_append_of_le_length hle
      have hd : (c :: cs ++ '\n' :: ds).drop n = (c :: cs).drop n ++ '\n' :: ds :=
        List.drop_append_of_le_length hle
      rw [← Position.advance_append, List.take_append_drop] at ih
      rw [← ht]
      refine .piece hc ((firstMatch?_append_newline hc cs ds).trans hm) ?_
      show Scans (p.advance ((c :: cs ++ '\n' :: ds).take n)) ((c :: cs ++ '\n' :: ds).drop n) _
      rw [ht, hd]
      exact ih h'
  | stray hc hm _ ih => exact .stray hc ((firstMatch?_append_newline hc _ ds).trans hm) (ih h')

theorem Scans.drop_blanks {p : Position} {cs : List Char} {found : List Scanned}
    (h : Scans (p.advance (cs.take (Pattern.blanks.width cs)))
      (cs.drop (Pattern.blanks.width cs)) found) : Scans p cs found := by
  induction cs generalizing p with
  | nil => simpa [Pattern.blanks, Pattern.width, Pattern.repeatWidth] using h
  | cons c cs ih =>
      cases hc : Text.isBlank c with
      | true =>
          rw [blanks_width_cons hc, List.take_succ_cons, List.drop_succ_cons] at h
          exact .blank hc (ih h)
      | false =>
          rw [blanks_width_of_not_blank hc] at h
          exact h

theorem step_nil (pos : Position) : step ⟨[], pos, false⟩ = .ended ⟨[], pos, true⟩ := rfl

theorem step_blank {c : Char} (hc : Text.isBlank c) (cs : List Char) (pos : Position) :
    step ⟨c :: cs, pos, false⟩ = .blank ⟨cs.drop (Pattern.blanks.width cs),
      pos.advance (c :: cs.take (Pattern.blanks.width cs)), false⟩ := by
  simp only [step, Lexer.next?, firstMatch?_blank hc]
  rfl

theorem step_piece {c : Char} (hc : Text.isBlank c = false) {cs : List Char} {r : Rule TokenKind}
    {n : Nat} (hm : firstMatch? tokenRules (c :: cs) = some (r, n)) (pos : Position) :
    step ⟨c :: cs, pos, false⟩ =
      .item (scanned r.tag ⟨pos, pos.advance ((c :: cs).take n)⟩ ((c :: cs).take n))
        ⟨(c :: cs).drop n, pos.advance ((c :: cs).take n), false⟩ := by
  obtain ⟨hb, he⟩ := firstMatch?_tag hc hm
  rw [← advance_piece hc hm pos]
  obtain ⟨k, rfl⟩ := Nat.exists_eq_succ_of_ne_zero (Nat.ne_of_gt (width_le_of_firstMatch? hm).1)
  simp only [step, Lexer.next?, hm]
  split
  · next h =>
      obtain ⟨rfl, rfl⟩ := h
      split
      · next h => exact absurd h hb
      · next h => exact absurd h he
      · rfl
  · next h => cases h

theorem step_stray {c : Char} {cs : List Char} (hm : firstMatch? tokenRules (c :: cs) = none)
    (pos : Position) : step ⟨c :: cs, pos, false⟩ =
      .item (.error ⟨.invalidChar c.toNat, ⟨pos, pos.step c⟩⟩) ⟨cs, pos.step c, false⟩ := by
  simp only [step, Lexer.next?, hm]
  rfl

theorem nextWithin_scans (fuel : Nat) (cs : List Char) (pos : Position) (h : cs.length < fuel) :
    (∃ pos' finished, nextWithin fuel ⟨cs, pos, false⟩ = (none, ⟨[], pos', finished⟩) ∧
        Scans pos cs []) ∨
      ∃ i ds pos', nextWithin fuel ⟨cs, pos, false⟩ = (some i, ⟨ds, pos', false⟩) ∧
        ds.length < cs.length ∧ ∀ {found}, Scans pos' ds found → Scans pos cs (i :: found) := by
  induction fuel generalizing cs pos with
  | zero => omega
  | succ fuel ih =>
      cases cs with
      | nil =>
          exact .inl ⟨pos, true, by simp only [nextWithin, step_nil], .nil⟩
      | cons c cs =>
          simp only [List.length_cons] at h
          cases hc : Text.isBlank c with
          | true =>
              have hlen : (cs.drop (Pattern.blanks.width cs)).length ≤ cs.length := by simp
              simp only [nextWithin, step_blank hc cs pos]
              rcases ih (cs.drop (Pattern.blanks.width cs)) _ (by omega) with
                ⟨pos'', finished, hn, hnil⟩ | ⟨i, ds, pos'', hn, hlt, hds⟩
              · exact .inl ⟨pos'', finished, hn, .blank hc hnil.drop_blanks⟩
              · refine .inr ⟨i, ds, pos'', hn, by simp only [List.length_cons]; omega, ?_⟩
                intro found hf
                exact .blank hc (hds hf).drop_blanks
          | false =>
              right
              cases hm : firstMatch? tokenRules (c :: cs) with
              | none =>
                  simp only [nextWithin, step_stray hm pos]
                  exact ⟨_, cs, _, rfl, by simp, fun hf => .stray hc hm hf⟩
              | some found =>
                  obtain ⟨r, n⟩ := found
                  have hn := width_le_of_firstMatch? hm
                  simp only [nextWithin, step_piece hc hm pos]
                  refine ⟨_, (c :: cs).drop n, _, rfl, ?_, fun hf => .piece hc hm hf⟩
                  simp only [List.length_drop]
                  omega

theorem itemsWithin_scans (fuel : Nat) (cs : List Char) (pos : Position) (h : cs.length < fuel) :
    Scans pos cs (itemsWithin fuel ⟨cs, pos, false⟩).1 := by
  induction fuel generalizing cs pos with
  | zero => omega
  | succ fuel ih =>
      rcases nextWithin_scans (fuel + 1) cs pos h with
        ⟨pos', finished, hn, hnil⟩ | ⟨i, ds, pos', hn, hlt, hds⟩
      · simp only [itemsWithin, hn]
        exact hnil
      · simp only [itemsWithin, hn]
        exact hds (ih ds pos' (by omega))

theorem scan_scans (text : List Char) : Scans .start text (scan text) :=
  itemsWithin_scans _ text .start (Nat.lt_succ_self _)

theorem Scans.next {p : Position} {cs : List Char} {found : List Scanned} (h : Scans p cs found) :
    (found = [] ∧ ∃ pos finished, Scanner.next ⟨cs, p, false⟩ = (none, ⟨[], pos, finished⟩)) ∨
      ∃ i rest ds pos, found = i :: rest ∧ Scanner.next ⟨cs, p, false⟩ = (some i, ⟨ds, pos, false⟩) ∧
        ds.length < cs.length ∧ Scans pos ds rest := by
  rcases nextWithin_scans (cs.length + 1) cs p (Nat.lt_succ_self _) with
    ⟨pos, finished, hnext, hnil⟩ | ⟨i, ds, pos, hnext, hlt, hds⟩
  · exact .inl ⟨(h.agree hnil).2 rfl, pos, finished, hnext⟩
  · have hrest := itemsWithin_scans _ ds pos (Nat.lt_succ_self _)
    exact .inr ⟨i, _, ds, pos, (h.agree (hds hrest)).2 rfl, hnext, hlt, hrest⟩

theorem scan_append {t s : List Char} {found : List Scanned}
    (h : Scans ((Position.start.advance t).step '\n') s found) :
    scan (t ++ '\n' :: s) = scan t ++ found :=
  ((scan_scans _).agree ((scan_scans t).append_newline h)).2 rfl

theorem scan_append_newline (t s : List Char) :
    (scan (t ++ '\n' :: s)).map Scanned.bare =
      (scan t).map Scanned.bare ++ (scan s).map Scanned.bare := by
  have hs := itemsWithin_scans _ s ((Position.start.advance t).step '\n') (Nat.lt_succ_self _)
  rw [scan_append hs, List.map_append, (hs.agree (scan_scans s)).1]

end Scanner

end SmallLisp
