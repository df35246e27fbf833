import SmallLisp.Proofs.Lex.Tape

namespace SmallLisp

namespace Lexer

variable {τ σ : Type}

inductive Call where
  | next
  | lookahead
  | skip (n : UInt64)

inductive Answer (τ : Type) where
  | token (found : Option (τ × Span))
  | char (ahead : Option Char)
  | skipped (span : Span)

namespace Answer

def token? : Answer τ → Option (τ × Span)
  | .token found => found
  | _ => none

def span? : Answer τ → Option Span
  | .token found => found.map (·.2)
  | .char _ => none
  | .skipped span => some span

def isEnd (a : Answer τ) : Bool := a.token?.any fun token => token.2.length = 0

end Answer

def answer? (rules : List (Rule τ)) (l : Lexer) : Call → Option (Answer τ × Lexer)
  | .next =>
      match l.next? rules with
      | none => some (.token none, l)
      | some (piece, l') => some (.token (some (piece.tag, piece.span)), l')
  | .lookahead => some (.char l.lookahead?, l)
  | .skip n => (l.skip? n).map fun (span, l') => (.skipped span, l')

def run? (answer? : σ → Call → Option (Answer τ × σ)) : σ → List Call → Option (List (Answer τ × σ))
  | _, [] => some []
  | s, call :: calls => do
      let (a, s') ← answer? s call
      let steps ← run? answer? s' calls
      some ((a, s') :: steps)

end Lexer

/-- An inline rule takes no newline, wherever it is tried in a text. -/
def Rule.KeepsLine {τ : Type} (text : List Char) (r : Rule τ) : Prop :=
  r.inline → ∀ cs, cs <:+ text → '\n' ∉ cs.take (r.pattern.width cs)

def Tape.answer? {τ : Type} (rules : List (Rule τ)) (t : Tape) :
    Lexer.Call → Option (Lexer.Answer τ × Tape)
  | .next => (t.next? rules).map fun (found, t') => (.token found, t')
  | .lookahead => t.lookahead?.map fun ahead => (.char ahead, t)
  | .skip n => (t.skip? n).map fun (span, t') => (.skipped span, t')

namespace Lexer

variable {τ : Type} {rules : List (Rule τ)} {text : List Char} {l l' : Lexer} {call : Call} {a : Answer τ}

theorem Within.take_consumed (h' : l'.Within text) (h : l.Within text) {w : List Char}
    (hrest : l.rest = w ++ l'.rest) : text.take (l.consumed text) ++ w = text.take (l'.consumed text) := by
  have hadd := h.consumed_add
  have hadd' := h'.consumed_add
  have hlength : l.consumed text + w.length = l'.consumed text := by
    rw [hrest, List.length_append] at hadd
    omega
  rw [← hlength, List.take_add, ← h.rest_eq, hrest, List.take_left]

structure Advances (rules : List (Rule τ)) (text : List Char) (l : Lexer) (a : Answer τ) (l' : Lexer) :
    Prop where
  within : l'.Within text
  span {s : Span} : a.span? = some s →
    s = ⟨l.pos, l'.pos⟩ ∧ s.start.offset = l.consumed text ∧ s.stop.offset = l'.consumed text
  still : a.span? = none → l' = l
  passed : ∃ w, l.rest = w ++ l'.rest ∧ ((∀ r ∈ rules, r.KeepsLine text) → l'.pos = l.pos.advance w)
  ended : l.finished → l'.finished ∧ a.token? = none
  ends : a.isEnd → l'.finished

theorem Within.answer?_onTape (h : l.Within text) (hsize : Addressable text) (rules : List (Rule τ))
    (call : Call) : (l.onTape text).answer? rules call =
      (l.answer? rules call).map fun (a, l') => (a, l'.onTape text) := by
  cases call with
  | next =>
      simp only [Tape.answer?, answer?, h.next?_onTape hsize]
      cases l.next? rules <;> rfl
  | lookahead =>
      simp only [Tape.answer?, h.lookahead?_onTape hsize]
      rfl
  | skip n =>
      simp only [Tape.answer?, answer?, h.skip?_onTape hsize, Option.map_map]
      rfl

theorem Answer.token?_eq_none (h : a.span? = none) : a.token? = none := by
  cases a with
  | token found => exact Option.map_eq_none_iff.mp h
  | char ahead => rfl
  | skipped span => cases h

theorem Within.stays (h : l.Within text) (ha : a.span? = none) : Advances rules text l a l where
  within := h
  span hs := by rw [ha] at hs; cases hs
  still _ := rfl
  passed := ⟨[], rfl, fun _ => rfl⟩
  ended hfinished := ⟨hfinished, a.token?_eq_none ha⟩
  ends hends := by simp [Answer.isEnd, a.token?_eq_none ha] at hends

theorem next?_eq_some {piece : Piece τ} (h : l.next? rules = some (piece, l')) :
    l.finished = false ∧ ∃ r n, r ∈ rules ∧ r.pattern.width l.rest = n ∧ 0 < n ∧
      l.cut r n = (piece, l') := by
  unfold next? at h
  split at h
  · cases h
  · next hfinished =>
      obtain ⟨⟨r, n⟩, hmatch, hcut⟩ := Option.map_eq_some_iff.mp h
      obtain ⟨hr, hwidth, hpos⟩ := firstMatch?_spec hmatch
      exact ⟨Bool.eq_false_iff.mpr hfinished, r, n, hr, hwidth, hpos, hcut⟩

theorem posBehind_eq_advance {r : Rule τ} (hr : r.KeepsLine text) (hrest : l.rest <:+ text) :
    l.posBehind r.inline (r.pattern.width l.rest) =
      l.pos.advance (l.rest.take (r.pattern.width l.rest)) := by
  unfold posBehind
  split
  · next hinline => exact (l.pos.advance_eq_advanceColumns _ (hr hinline _ hrest)).symm
  · rfl

theorem Within.advances_next (h : l.Within text) {piece : Piece τ}
    (hnext : l.next? rules = some (piece, l')) :
    Advances rules text l (.token (some (piece.tag, piece.span))) l' := by
  obtain ⟨hfinished, r, n, hr, hwidth, hpos, hcut⟩ := next?_eq_some hnext
  obtain ⟨rfl, rfl⟩ := Prod.mk.inj ((l.cut_eq r n).symm.trans hcut)
  have hoffset := l.posBehind_offset r.inline n
  have hended : (l.rest.take n).isEmpty → l.rest.drop n = [] := by
    intro hempty
    have htake := List.isEmpty_iff.mp hempty
    rcases List.take_eq_nil_iff.mp htake with hn | hrest
    · omega
    · rw [hrest, List.drop_nil]
  have hwithin := h.drop hoffset hended
  refine ⟨hwithin, ?_, nofun, ⟨l.rest.take n, (List.take_append_drop n l.rest).symm, ?_⟩, ?_, ?_⟩
  · rintro s ⟨⟩
    exact ⟨rfl, h.offset, hwithin.offset⟩
  · intro hrules
    subst hwidth
    exact posBehind_eq_advance (hrules r hr) h.suffix
  · simp [hfinished]
  · intro hends
    have hlength : (l.posBehind r.inline n).offset - l.pos.offset = 0 := of_decide_eq_true hends
    rw [List.isEmpty_iff_length_eq_zero]
    omega

theorem Within.advances_skip (h : l.Within text) {n : UInt64} {span : Span}
    (hskip : l.skip? n = some (span, l')) : Advances rules text l (.skipped span) l' := by
  unfold skip? at hskip
  split at hskip
  · cases hskip
    have hended : l.finished → l.rest.drop n.toNat = [] := by
      intro hfinished
      rw [h.ended hfinished, List.drop_nil]
    have hwithin := h.drop (l.pos.advance_offset (l.rest.take n.toNat)) hended
    refine ⟨hwithin, ?_, nofun, ⟨_, (List.take_append_drop n.toNat l.rest).symm, fun _ => rfl⟩,
      fun hfinished => ⟨hfinished, rfl⟩, nofun⟩
    rintro s ⟨⟩
    exact ⟨rfl, h.offset, hwithin.offset⟩
  · cases hskip

theorem Within.advances (h : l.Within text) (ha : l.answer? rules call = some (a, l')) :
    Advances rules text l a l' := by
  cases call with
  | next =>
      cases hnext : l.next? rules with
      | none =>
          simp only [answer?, hnext] at ha
          cases ha
          exact h.stays rfl
      | some found =>
          simp only [answer?, hnext] at ha
          cases ha
          exact h.advances_next hnext
  | lookahead =>
      cases ha
      exact h.stays rfl
  | skip n =>
      obtain ⟨⟨span, l''⟩, hskip, heq⟩ := Option.map_eq_some_iff.mp ha
      cases heq
      exact h.advances_skip hskip

theorem Within.answer?_isSome (h : l.Within text) (hsize : Addressable text) (rules : List (Rule τ))
    (hcall : ∀ n, call = .skip n → n.toNat ≤ text.length) : (l.answer? rules call).isSome := by
  cases call with
  | next =>
      simp only [answer?]
      cases l.next? rules <;> rfl
  | lookahead => rfl
  | skip n =>
      have hadd := h.consumed_add
      have hn := hcall n rfl
      have hlength := hsize.length_lt
      have hfits : l.pos.offset + n.toNat < offsetLimit := by
        rw [h.offset, offsetLimit]
        omega
      simp only [answer?, skip?, if_pos hfits]
      rfl

inductive Path (rules : List (Rule τ)) (text : List Char) : Lexer → List (Answer τ × Lexer) → Prop
  | done (l : Lexer) : Path rules text l []
  | call {l l' : Lexer} {a : Answer τ} {steps : List (Answer τ × Lexer)} :
      Advances rules text l a l' → Path rules text l' steps → Path rules text l ((a, l') :: steps)

theorem Within.exists_path (h : l.Within text) (hsize : Addressable text) (rules : List (Rule τ))
    {calls : List Call} (hcalls : ∀ n, .skip n ∈ calls → n.toNat ≤ text.length) :
    ∃ steps, run? (answer? rules) l calls = some steps ∧
      run? (Tape.answer? rules) (l.onTape text) calls =
        some (steps.map fun (a, l') => (a, l'.onTape text)) ∧
      Path rules text l steps := by
  induction calls generalizing l with
  | nil => exact ⟨[], rfl, rfl, .done l⟩
  | cons call calls ih =>
      have hcall : ∀ n, call = .skip n → n.toNat ≤ text.length :=
        fun n hn => hcalls n (hn ▸ List.mem_cons_self)
      obtain ⟨⟨a, l'⟩, ha⟩ := Option.isSome_iff_exists.mp (h.answer?_isSome hsize rules hcall)
      have hadvances := h.advances ha
      obtain ⟨steps, hrun, htape, hpath⟩ :=
        ih hadvances.within fun n hn => hcalls n (List.mem_cons_of_mem call hn)
      refine ⟨(a, l') :: steps, ?_, ?_, .call hadvances hpath⟩
      · simp only [run?, ha, Option.bind_eq_bind, Option.bind_some, hrun]
      · simp only [run?, h.answer?_onTape hsize, ha, Option.map_some, Option.bind_eq_bind,
          Option.bind_some, htape, List.map_cons]

def spans (steps : List (Answer τ × Lexer)) : List Span := steps.filterMap fun (a, _) => a.span?

namespace Path

variable {steps : List (Answer τ × Lexer)}

theorem starts (h : Path rules text l steps) :
    (spans steps).map (·.start) = (l.pos :: (spans steps).map (·.stop)).dropLast := by
  induction h with
  | done l => rfl
  | @call l l' a steps ha _ ih =>
      cases hspan : a.span? with
      | none =>
          obtain rfl := ha.still hspan
          simpa [spans, hspan] using ih
      | some s =>
          obtain ⟨rfl, -⟩ := ha.span hspan
          simpa [spans, hspan] using ih

theorem none_behind (h : Path rules text l steps) (hl : l.finished) :
    ∀ x ∈ steps, x.1.token? = none := by
  induction h with
  | done l => exact List.forall_mem_nil _
  | call ha _ ih =>
      obtain ⟨hfinished, hnone⟩ := ha.ended hl
      exact List.forall_mem_cons.mpr ⟨hnone, ih hfinished⟩

theorem pairwise (h : Path rules text l steps) :
    steps.Pairwise fun x y => x.1.isEnd → y.1.token? = none := by
  induction h with
  | done l => exact .nil
  | call ha hpath ih => exact .cons (fun y hy hends => hpath.none_behind (ha.ends hends) y hy) ih

theorem spans_behind (h : Path rules text l steps) (hrules : ∀ r ∈ rules, r.KeepsLine text)
    (hl : l.Within text) (hpos : l.pos = .behind text (l.consumed text)) {s : Span}
    (hs : s ∈ spans steps) :
    s.start = .behind text s.start.offset.toNat ∧ s.stop = .behind text s.stop.offset.toNat := by
  induction h with
  | done l => cases hs
  | @call l l' a steps ha _ ih =>
      obtain ⟨w, hrest, hadvance⟩ := ha.passed
      have hpos' : l'.pos = .behind text (l'.consumed text) := by
        rw [hadvance hrules, hpos, Position.behind, Position.behind, ← Position.advance_append,
          ha.within.take_consumed hl hrest]
      have hrest : s ∈ spans steps → _ := ih ha.within hpos'
      cases hspan : a.span? with
      | none => exact hrest (by simpa [spans, hspan] using hs)
      | some t =>
          obtain ⟨rfl, hstart, hstop⟩ := ha.span hspan
          rcases List.mem_cons.mp (show s ∈ _ :: spans steps by simpa [spans, hspan] using hs) with
            rfl | hs
          · rw [hstart, hstop, Int.toNat_natCast, Int.toNat_natCast]
            exact ⟨hpos, hpos'⟩
          · exact hrest hs

theorem offset_of_isEnd (h : Path rules text l steps) {x : Answer τ × Lexer} (hx : x ∈ steps)
    (hends : x.1.isEnd) {s : Span} (hs : x.1.span? = some s) : s.stop.offset = text.length := by
  induction h with
  | done l => cases hx
  | @call l l' a steps ha _ ih =>
      rcases List.mem_cons.mp hx with rfl | hx
      · have hrest := ha.within.ended (ha.ends hends)
        rw [(ha.span hs).2.2, consumed, hrest]
        rfl
      · exact ih hx

theorem countP_isEnd_le (h : Path rules text l steps) : steps.countP (·.1.isEnd) ≤ 1 := by
  have hends : ∀ x ∈ steps.filter (·.1.isEnd), x.1.isEnd := fun x hx => (List.mem_filter.mp hx).2
  have hpairwise := h.pairwise.filter (·.1.isEnd)
  rw [List.countP_eq_length_filter]
  generalize steps.filter (·.1.isEnd) = ends at hends hpairwise
  match ends with
  | [] => exact Nat.zero_le 1
  | [_] => exact Nat.le_refl 1
  | x :: y :: _ =>
      -- The second one would be a token behind the first one.
      have hx := hends x (.head _)
      have hy := hends y (.tail _ (.head _))
      have hnone := (List.pairwise_cons.mp hpairwise).1 y (.head _) hx
      simp [Answer.isEnd, hnone] at hy

end Path

/-- Every call of a lexer is answered, whatever its rules are: no pattern takes more than there is, and the
index never leaves the text. The spans stand one behind the other, and their offsets count the characters
that were read or passed over; if the inline rules keep within lines, their ends are the positions of the
text. One token at most has no characters, which is the end of the text, and no token comes behind it. -/
theorem calls_are_safe (rules : List (Rule τ)) {text : List Char} (hsize : Addressable text)
    {calls : List Call} (hcalls : ∀ n, .skip n ∈ calls → n.toNat ≤ text.length) :
    (∀ (p : Pattern) (cs : List Char), (cs ≠ [] → p.width cs ≤ cs.length) ∧
        (Addressable cs → p.count? cs = some (.ofNat (p.width cs)))) ∧
      ∃ steps, run? (answer? rules) (ofText text) calls = some steps ∧
        run? (Tape.answer? rules) (.ofText text) calls =
          some (steps.map fun (a, l) => (a, l.onTape text)) ∧
        Path rules text (ofText text) steps ∧
        (spans steps).map (·.start) = (.start :: (spans steps).map (·.stop)).dropLast ∧
        steps.countP (·.1.isEnd) ≤ 1 ∧
        (∀ x ∈ steps, x.1.isEnd → ∀ s, x.1.span? = some s → s.stop.offset = text.length) ∧
        (steps.Pairwise fun x y => x.1.isEnd → y.1.token? = none) ∧
        ((∀ r ∈ rules, r.KeepsLine text) → ∀ s ∈ spans steps,
          s.start = .behind text s.start.offset.toNat ∧ s.stop = .behind text s.stop.offset.toNat) := by
  have hstart := within_ofText text
  obtain ⟨steps, hrun, htape, hpath⟩ := hstart.exists_path hsize rules hcalls
  rw [onTape_ofText] at htape
  refine ⟨fun p cs => ⟨fun hne => ?_, fun h => p.count?_eq (Nat.lt_trans h.length_lt (by decide))⟩,
    steps, hrun, htape, hpath, hpath.starts, hpath.countP_isEnd_le,
    fun x hx hends s => hpath.offset_of_isEnd hx hends, hpath.pairwise,
    fun hrules s => hpath.spans_behind hrules hstart ?_⟩
  · obtain ⟨c, ds, rfl⟩ := List.exists_cons_of_ne_nil hne
    exact p.width_le c ds
  · simp [Position.behind, consumed, ofText]

theorem calls_are_safe_at_skipped_character :
    -- The end of the text within a repetition, a newline, and a character that starts nothing.
    let digits : Rule Nat := ⟨.many (.any [.within '0' '9', .eof]), 4, true⟩
    let blanks : Rule Nat := ⟨.many (.any [.literal [' '], .literal ['\n']]), 1, false⟩
    let rules : List (Rule Nat) := [digits, blanks, ⟨.eof, 0, false⟩]
    let text := ['9', '\n', 'x']
    let calls : List Call := [.next, .next, .next, .lookahead, .skip 3, .next, .next]
    Addressable text ∧ (∀ n, .skip n ∈ calls → n.toNat ≤ text.length) ∧
      (∀ r ∈ rules, r.KeepsLine text) ∧
      ∃ steps, run? (answer? rules) (ofText text) calls = some steps ∧
        (spans steps).map (·.stop) = [⟨1, 0, 1⟩, ⟨2, 1, 0⟩, ⟨3, 1, 1⟩, ⟨3, 1, 1⟩] ∧
        (spans steps).map (·.start) = [⟨0, 0, 0⟩, ⟨1, 0, 1⟩, ⟨2, 1, 0⟩, ⟨3, 1, 1⟩] ∧
        ∀ s ∈ spans steps, s.stop = .behind text s.stop.offset.toNat := by
  intro digits blanks rules text calls
  have hsize : Addressable text := by decide
  have hcalls : ∀ n, .skip n ∈ calls → n.toNat ≤ text.length := by
    intro n hn
    obtain rfl : n = 3 := by simpa [calls] using hn
    decide
  have hrules : ∀ r ∈ rules, r.KeepsLine text := by
    have havoid : ∀ r ∈ rules, r.inline → r.pattern.avoids '\n' := by decide
    exact fun r hr hinline cs _ => Pattern.not_mem_take_width (havoid r hr hinline) cs
  obtain ⟨-, steps, hrun, -, -, hstarts, -, -, -, hbehind⟩ := calls_are_safe rules hsize hcalls
  have hstops : (spans steps).map (·.stop) = [⟨1, 0, 1⟩, ⟨2, 1, 0⟩, ⟨3, 1, 1⟩, ⟨3, 1, 1⟩] := by
    have hvalue : ((run? (answer? rules) (ofText text) calls).map fun steps => (spans steps).map (·.stop)) =
        some [⟨1, 0, 1⟩, ⟨2, 1, 0⟩, ⟨3, 1, 1⟩, ⟨3, 1, 1⟩] := by decide +kernel
    rw [hrun] at hvalue
    exact Option.some.inj hvalue
  refine ⟨hsize, hcalls, hrules, steps, hrun, hstops, ?_, fun s hs => (hbehind hrules s hs).2⟩
  rw [hstarts, hstops]
  rfl

/-- The lexers that calls lead to. A call without an answer leaves a lexer where it is. -/
inductive Reached (rules : List (Rule τ)) (text : List Char) : Lexer → Prop
  | start : Reached rules text (ofText text)
  | call {l l' : Lexer} {call : Call} {a : Answer τ} :
      Reached rules text l → l.answer? rules call = some (a, l') → Reached rules text l'

theorem Reached.within (h : Reached rules text l) : l.Within text := by
  induction h with
  | start => exact within_ofText text
  | call _ ha ih => exact (ih.advances ha).within

/-- At most `n` characters are passed over, and fewer only at the end of the text, as long as the place `n`
characters ahead is a signed word. Where it is none, the index that a tape computes has wrapped around, and
there is no answer, however few characters are left. -/
theorem skips_are_exact_up_to_word_limit (h : Reached rules text l) (n : UInt64) :
    (l.consumed text + n.toNat < 2 ^ 63 →
        ∃ passed l', l.skip? n = some (⟨l.pos, l.pos.advance passed⟩, l') ∧
          l.rest = passed ++ l'.rest ∧ passed.length = min n.toNat l.rest.length ∧
          l'.pos = l.pos.advance passed) ∧
      (2 ^ 63 ≤ l.consumed text + n.toNat → l.skip? n = none) ∧
      (Addressable text →
        (l.onTape text).skip? n = (l.skip? n).map fun (span, l') => (span, l'.onTape text)) := by
  have hwithin := h.within
  refine ⟨fun hlt => ?_, fun hge => ?_, fun hsize => hwithin.skip?_onTape hsize n⟩
  · have hfits : l.pos.offset + n.toNat < offsetLimit := by
      rw [hwithin.offset, offsetLimit]
      omega
    exact ⟨l.rest.take n.toNat, _, if_pos hfits, (List.take_append_drop n.toNat l.rest).symm,
      List.length_take, rfl⟩
  · refine if_neg ?_
    rw [hwithin.offset, offsetLimit]
    omega

theorem skips_are_exact_up_to_word_limit_behind_bracket :
    -- One character has been read, and two are left.
    let rules : List (Rule Nat) := [⟨.literal ['('], 2, true⟩]
    let l : Lexer := ⟨['x', ')'], ⟨1, 0, 1⟩, false⟩
    Reached rules ['(', 'x', ')'] l ∧
      (∃ l', l.skip? 9223372036854775806 = some (⟨⟨1, 0, 1⟩, ⟨3, 0, 3⟩⟩, l') ∧ l'.rest = []) ∧
      l.skip? 9223372036854775807 = none := by
  intro rules l
  have hnext : (ofText ['(', 'x', ')']).answer? rules .next =
      some (.token (some (2, ⟨⟨0, 0, 0⟩, ⟨1, 0, 1⟩⟩)), l) := rfl
  have hreached : Reached rules ['(', 'x', ')'] l := .call .start hnext
  obtain ⟨hpassed, -, -⟩ := skips_are_exact_up_to_word_limit hreached 9223372036854775806
  obtain ⟨-, hnone, -⟩ := skips_are_exact_up_to_word_limit hreached 9223372036854775807
  obtain ⟨passed, l', hskip, hrest, hlength, -⟩ := hpassed (by decide)
  obtain rfl : passed = l.rest := by
    have hall : passed.length = l.rest.length := hlength
    rw [hrest, List.length_append] at hall
    rw [hrest, List.eq_nil_of_length_eq_zero (show l'.rest.length = 0 by omega), List.append_nil]
  exact ⟨hreached, ⟨l', hskip, List.append_right_eq_self.mp hrest.symm⟩, hnone (by decide)⟩

/-- One character is left, but the largest count passes over none. -/
theorem skip_fails_at_word_limit :
    let l := ofText ['a']
    let n : UInt64 := 18446744073709551615
    Reached ([] : List (Rule Nat)) ['a'] l ∧ min n.toNat l.rest.length = 1 ∧ l.skip? n = none ∧
      (l.onTape ['a']).target n = -1 ∧ ((l.onTape ['a']).skip? n).isNone := by
  exact ⟨.start, rfl, rfl, by decide, by decide⟩

end Lexer

end SmallLisp
