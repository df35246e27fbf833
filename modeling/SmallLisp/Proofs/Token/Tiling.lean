import SmallLisp.Proofs.Token.Scanning

namespace SmallLisp

def Position.behind (text : List Char) (i : Nat) : Position := start.advance (text.take i)

theorem Position.behind_offset {text : List Char} {i : Nat} (h : i ≤ text.length) :
    (behind text i).offset = i := by
  rw [behind, advance_offset, List.length_take_of_le h]
  exact Int.zero_add _

theorem Position.advance_concat (seen : List Char) (c : Char) :
    start.advance (seen ++ [c]) = (start.advance seen).step c :=
  advance_append start seen [c]

theorem Position.advance_start_offset (seen : List Char) :
    (start.advance seen).offset = seen.length := by
  rw [advance_offset]
  exact Int.zero_add _

namespace Span

def under (text : List Char) (s : Span) : List Char :=
  (text.take s.stop.offset.toNat).drop s.start.offset.toNat

def Holds (k : Nat) (s : Span) : Prop := s.start.offset ≤ k ∧ k < s.stop.offset

instance (k : Nat) (s : Span) : Decidable (s.Holds k) :=
  inferInstanceAs (Decidable (s.start.offset ≤ k ∧ k < s.stop.offset))

/-- A span of at least one character of a text, with the positions reached by reading up to its ends. -/
structure Exact (text : List Char) (s : Span) : Prop where
  nonempty : s.start.offset < s.stop.offset
  nonneg : 0 ≤ s.start.offset
  within : s.stop.offset ≤ text.length
  start_eq : s.start = .behind text s.start.offset.toNat
  stop_eq : s.stop = .behind text s.stop.offset.toNat

end Span

def Lexeme.Reads (w : List Char) : Lexeme → Prop
  | .number value => Text.numeral? w = some value
  | l => l.text.toList = w

/-- What a token or an error says of the characters it stands for: a token is spelled out by them, an
invalid character is the only one of them, and an overflow is a numeral without a value. -/
def Scanned.Reads (w : List Char) : Scanned → Prop
  | .ok t => t.lexeme.Reads w
  | .error e =>
      match e.cause with
      | .invalidChar code => ∃ c : Char, w = [c] ∧ code = c.toNat
      | .overflow => Text.numeral? w = none
      | .unfinished => False

def Scanned.span : Scanned → Span
  | .ok t => t.span
  | .error e => e.span

structure Scanned.StandsFor (seen w : List Char) (i : Scanned) : Prop where
  nonempty : w ≠ []
  span : i.span = ⟨.advance .start seen, .advance .start (seen ++ w)⟩
  reads : i.Reads w

namespace Scanned

variable {seen w post : List Char} {i : Scanned}

theorem StandsFor.start_offset (h : i.StandsFor seen w) : i.span.start.offset = seen.length := by
  rw [h.span]
  exact Position.advance_start_offset seen

theorem StandsFor.stop_offset (h : i.StandsFor seen w) :
    i.span.stop.offset = (seen ++ w).length := by
  rw [h.span]
  exact Position.advance_start_offset (seen ++ w)

theorem StandsFor.exact (h : i.StandsFor seen w) : i.span.Exact (seen ++ w ++ post) where
  nonempty := by
    have hw := List.length_pos_iff.mpr h.nonempty
    rw [h.start_offset, h.stop_offset, List.length_append]
    omega
  nonneg := by
    rw [h.start_offset]
    exact Int.natCast_nonneg _
  within := by
    rw [h.stop_offset]
    simp only [List.length_append]
    omega
  start_eq := by
    rw [h.start_offset, Int.toNat_natCast, h.span, Position.behind, List.append_assoc,
      List.take_left]
  stop_eq := by
    rw [h.stop_offset, Int.toNat_natCast, h.span, Position.behind, List.take_left]

theorem StandsFor.under_eq (h : i.StandsFor seen w) : i.span.under (seen ++ w ++ post) = w := by
  rw [Span.under, h.start_offset, h.stop_offset, Int.toNat_natCast, Int.toNat_natCast, List.take_left,
    List.drop_left]

end Scanned

namespace Scanner

open Lexer (firstMatch?)

theorem span_scanned (kind : TokenKind) (span : Span) (text : List Char) :
    Scanned.span (scanned kind span text) = span := by
  unfold scanned
  split
  · split <;> rfl
  · rfl

theorem reads_of_markRules {r : Rule TokenKind} (hr : r ∈ markRules) (span : Span) {cs : List Char}
    (hpos : 0 < r.pattern.width cs) :
    Scanned.Reads (cs.take (r.pattern.width cs)) (scanned r.tag span (cs.take (r.pattern.width cs))) := by
  have hmarks : ∀ r ∈ markRules, ∃ d, r.pattern = .literal [d] ∧
      ∀ text, Scanned.Reads [d] (scanned r.tag span text) := by
    simp only [markRules, tokenRules, List.take_succ_cons, List.take_zero, List.forall_mem_cons]
    refine ⟨?_, ?_, ?_, ?_, ?_, ?_, ?_, ?_, ?_, ?_, ?_, by simp⟩ <;>
      exact ⟨_, rfl, fun _ => String.toList_singleton _⟩
  obtain ⟨d, hpattern, hreads⟩ := hmarks r hr
  have htake : cs.take (r.pattern.width cs) = [d] := by
    rw [hpattern, Pattern.width] at hpos ⊢
    split at hpos
    · next h =>
        rw [if_pos h]
        exact (List.prefix_iff_eq_take.mp (List.isPrefixOf_iff_prefix.mp h)).symm
    · omega
  rw [htake]
  exact hreads [d]

theorem reads_scanned {c : Char} (hc : Text.isBlank c = false) {cs : List Char} {r : Rule TokenKind}
    {n : Nat} (hm : firstMatch? tokenRules (c :: cs) = some (r, n)) (span : Span) :
    Scanned.Reads ((c :: cs).take n) (scanned r.tag span ((c :: cs).take n)) := by
  obtain ⟨hr, rfl, hpos⟩ := Lexer.firstMatch?_spec hm
  rw [tokenRules_eq, List.mem_append, List.mem_cons] at hr
  rcases hr with hr | rfl | hr
  · exact reads_of_markRules hr span hpos
  · exact absurd rfl (firstMatch?_tag hc hm).1
  · simp only [wordRules, tokenRules, List.drop_succ_cons, List.drop_zero, List.mem_cons,
      List.not_mem_nil, or_false] at hr
    rcases hr with rfl | rfl | rfl
    · simp only [scanned]
      split
      · next value hvalue => exact hvalue
      · next hnone => exact hnone
    · exact String.toList_ofList
    · exact absurd rfl (firstMatch?_tag hc hm).2

variable {p : Position} {cs seen : List Char} {found : List Scanned}

theorem Scans.standsFor (h : Scans p cs found) (hp : p = .advance .start seen) :
    ∀ i ∈ found, ∃ pre w post, seen ++ cs = pre ++ w ++ post ∧ seen.length ≤ pre.length ∧
      i.StandsFor pre w := by
  induction h generalizing seen with
  | nil =>
      intro i hi
      cases hi
  | @blank p c cs found _ _ ih =>
      intro i hi
      have hnext : p.step c = .advance .start (seen ++ [c]) := by rw [hp, Position.advance_concat]
      obtain ⟨pre, w, post, htext, hlen, hw⟩ := ih hnext i hi
      refine ⟨pre, w, post, by rw [← htext]; simp, ?_, hw⟩
      rw [List.length_append] at hlen
      omega
  | @piece p c cs r n found hc hm _ ih =>
      obtain ⟨hpos, _⟩ := width_le_of_firstMatch? hm
      have hnext : p.advance ((c :: cs).take n) = .advance .start (seen ++ (c :: cs).take n) := by
        rw [hp, Position.advance_append]
      have htext : seen ++ c :: cs = seen ++ (c :: cs).take n ++ (c :: cs).drop n := by
        rw [List.append_assoc, List.take_append_drop]
      refine List.forall_mem_cons.mpr ⟨?_, fun i hi => ?_⟩
      · refine ⟨seen, (c :: cs).take n, (c :: cs).drop n, htext, Nat.le_refl _, ?_, ?_, ?_⟩
        · obtain ⟨k, rfl⟩ := Nat.exists_eq_succ_of_ne_zero (Nat.ne_of_gt hpos)
          simp
        · rw [span_scanned, hnext, hp]
        · exact reads_scanned hc hm _
      · obtain ⟨pre, w, post, htext', hlen, hw⟩ := ih hnext i hi
        refine ⟨pre, w, post, htext.trans htext', ?_, hw⟩
        rw [List.length_append] at hlen
        omega
  | @stray p c cs found _ _ _ ih =>
      have hnext : p.step c = .advance .start (seen ++ [c]) := by rw [hp, Position.advance_concat]
      refine List.forall_mem_cons.mpr ⟨?_, fun i hi => ?_⟩
      · refine ⟨seen, [c], cs, by simp, Nat.le_refl _, List.cons_ne_nil c [], ?_, c, rfl, rfl⟩
        rw [← hnext, ← hp]
        rfl
      · obtain ⟨pre, w, post, htext, hlen, hw⟩ := ih hnext i hi
        refine ⟨pre, w, post, by rw [← htext]; simp, ?_, hw⟩
        rw [List.length_append] at hlen
        omega

theorem Scans.start_le (h : Scans p cs found) (hp : p = .advance .start seen) {i : Scanned}
    (hi : i ∈ found) : (seen.length : Int) ≤ i.span.start.offset := by
  obtain ⟨pre, w, _, _, hlen, hw⟩ := h.standsFor hp i hi
  rw [hw.start_offset]
  exact Int.ofNat_le.mpr hlen

theorem Scans.pairwise (h : Scans p cs found) (hp : p = .advance .start seen) :
    found.Pairwise fun i j => i.span.stop.offset ≤ j.span.start.offset := by
  induction h generalizing seen with
  | nil => exact .nil
  | @blank p c cs found _ _ ih =>
      have hnext : p.step c = .advance .start (seen ++ [c]) := by rw [hp, Position.advance_concat]
      exact ih hnext
  | @piece p c cs r n found _ _ hrest ih =>
      have hnext : p.advance ((c :: cs).take n) = .advance .start (seen ++ (c :: cs).take n) := by
        rw [hp, Position.advance_append]
      refine List.pairwise_cons.mpr ⟨fun j hj => ?_, ih hnext⟩
      rw [span_scanned, hnext, Position.advance_start_offset]
      exact hrest.start_le hnext hj
  | @stray p c cs found _ _ hrest ih =>
      have hnext : p.step c = .advance .start (seen ++ [c]) := by rw [hp, Position.advance_concat]
      refine List.pairwise_cons.mpr ⟨fun j hj => ?_, ih hnext⟩
      show (p.step c).offset ≤ _
      rw [hnext, Position.advance_start_offset]
      exact hrest.start_le hnext hj

theorem Scans.blank_of_not_holds (h : Scans p cs found) (hp : p = .advance .start seen) {k : Nat}
    (hk : seen.length ≤ k) {c : Char} (hc : (seen ++ cs)[k]? = some c)
    (hholds : ∀ i ∈ found, ¬i.span.Holds k) : Text.isBlank c := by
  induction h generalizing seen with
  | nil => simp [List.getElem?_eq_none hk] at hc
  | @blank p d cs found hd _ ih =>
      by_cases heq : k = seen.length
      · subst heq
        simp only [List.getElem?_append_right (Nat.le_refl _),
          Nat.sub_self, List.getElem?_cons_zero, Option.some.injEq] at hc
        exact hc ▸ hd
      · have hnext : p.step d = .advance .start (seen ++ [d]) := by rw [hp, Position.advance_concat]
        refine ih hnext ?_ (by simpa using hc) hholds
        rw [List.length_append, List.length_singleton]
        omega
  | @piece p d cs r n found _ hm _ ih =>
      obtain ⟨hfirst, hrest⟩ := List.forall_mem_cons.mp hholds
      have hnext : p.advance ((d :: cs).take n) = .advance .start (seen ++ (d :: cs).take n) := by
        rw [hp, Position.advance_append]
      rw [span_scanned, Span.Holds, hnext, hp, Position.advance_start_offset,
        Position.advance_start_offset] at hfirst
      exact ih hnext (by omega) (by simpa using hc) hrest
  | @stray p d cs found _ _ _ ih =>
      obtain ⟨hfirst, hrest⟩ := List.forall_mem_cons.mp hholds
      have hnext : p.step d = .advance .start (seen ++ [d]) := by rw [hp, Position.advance_concat]
      have hspan : ¬(p.offset ≤ k ∧ k < (p.step d).offset) := hfirst
      rw [hnext, hp, Position.advance_start_offset, Position.advance_start_offset] at hspan
      exact ih hnext (by omega) (by simpa using hc) hrest

theorem mem_tokens_iff {text : List Char} {t : Token} :
    t ∈ (tokenize text).1 ↔ .ok t ∈ scan text := by
  simp only [tokenize, List.mem_filterMap]
  constructor
  · rintro ⟨i, hi, heq⟩
    cases i with
    | ok t' =>
        cases heq
        exact hi
    | error e => cases heq
  · intro ht
    exact ⟨.ok t, ht, rfl⟩

theorem mem_errors_iff {text : List Char} {e : TokenError} :
    e ∈ (tokenize text).2 ↔ .error e ∈ scan text := by
  simp only [tokenize, List.mem_filterMap]
  constructor
  · rintro ⟨i, hi, heq⟩
    cases i with
    | ok t => cases heq
    | error e' =>
        cases heq
        exact hi
  · intro he
    exact ⟨.error e, he, rfl⟩

def answers : Nat → Lexer → List (Option Scanned)
  | 0, _ => []
  | n + 1, l => (next l).1 :: answers n (next l).2

theorem next_ended (pos : Position) (finished : Bool) :
    ∃ finished', next ⟨[], pos, finished⟩ = (none, ⟨[], pos, finished'⟩) := by
  cases finished with
  | true => exact ⟨true, rfl⟩
  | false => exact ⟨true, rfl⟩

theorem answers_ended (n : Nat) (pos : Position) (finished : Bool) :
    answers n ⟨[], pos, finished⟩ = List.replicate n none := by
  induction n generalizing finished with
  | zero => rfl
  | succ n ih =>
      obtain ⟨finished', hnext⟩ := next_ended pos finished
      rw [answers, hnext, ih, List.replicate_succ]

theorem answers_scans {n m : Nat} (hnm : n ≤ m) (h : Scans p cs found) :
    answers n ⟨cs, p, false⟩ = (found.map some ++ List.replicate m none).take n := by
  induction n generalizing p cs found with
  | zero => rfl
  | succ n ih =>
      rcases h.next with ⟨rfl, pos', finished, hnext⟩ | ⟨i, rest, ds, pos', rfl, hnext, _, hrest⟩
      · rw [answers, hnext, answers_ended, List.map_nil, List.nil_append, List.take_replicate,
          Nat.min_eq_left hnm, List.replicate_succ]
      · rw [answers, hnext, ih (Nat.le_of_succ_le hnm) hrest]
        rfl

theorem advance_start : Position.start = .advance .start [] := rfl

theorem exact_of_mem_scan {text : List Char} {i : Scanned} (hi : i ∈ scan text) :
    i.span.Exact text ∧ i.Reads (i.span.under text) := by
  obtain ⟨pre, w, post, htext, _, hw⟩ := (scan_scans text).standsFor advance_start i hi
  obtain rfl : text = pre ++ w ++ post := htext
  refine ⟨hw.exact, ?_⟩
  rw [hw.under_eq]
  exact hw.reads

/-- The scanner answers with what it finds in a text and then, for ever, that there is no more. Each
token or error stands for the characters under its span, of which there is at least one, and its span
has the positions of these characters; the spans ascend without overlap, and all other characters are
blanks. -/
theorem found_tile_text (text : List Char) :
    (∀ n, answers n (.ofText text) = ((scan text).map some ++ List.replicate n none).take n) ∧
      (∀ i ∈ scan text, i.span.Exact text ∧ i.Reads (i.span.under text)) ∧
      ((scan text).Pairwise fun i j => i.span.stop.offset ≤ j.span.start.offset) ∧
      ∀ k c, text[k]? = some c → (∀ i ∈ scan text, ¬i.span.Holds k) → Text.isBlank c :=
  ⟨fun _ => answers_scans (Nat.le_refl _) (scan_scans text), fun _ => exact_of_mem_scan,
    (scan_scans text).pairwise advance_start,
    fun k _ hc => (scan_scans text).blank_of_not_holds advance_start (Nat.zero_le k) hc⟩

theorem found_tile_text_of_two_lines :
    -- A symbol, a newline, a digit of another script, which starts nothing, and a bracket.
    let text := ['x', '\n', '٣', '(']
    let stray : Scanned := .error ⟨.invalidChar 0x663, ⟨⟨2, 1, 0⟩, ⟨3, 1, 1⟩⟩⟩
    (stray ∈ scan text ∧ stray.span.Exact text ∧ stray.Reads (stray.span.under text)) ∧
      text[1]? = some '\n' ∧ (∀ i ∈ scan text, ¬i.span.Holds 1) ∧ Text.isBlank '\n' := by
  intro text stray
  obtain ⟨_, hexact, _, hblank⟩ := found_tile_text text
  have hstray : stray ∈ scan text := List.mem_of_getElem? (i := 1) rfl
  have houtside : ∀ i ∈ scan text, ¬i.span.Holds 1 := by decide +kernel
  exact ⟨⟨hstray, hexact stray hstray⟩, rfl, houtside, hblank 1 '\n' rfl houtside⟩

end Scanner

end SmallLisp
