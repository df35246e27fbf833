import SmallLisp.Proofs.Source.Cover
import SmallLisp.Proofs.Token.Numeral

namespace SmallLisp

def Span.CutBy (k : Int) (s : Span) : Prop := s.start.offset < k ∧ k < s.stop.offset

def Scanned.token? : Scanned → Option Token
  | .ok t => some t
  | .error _ => none

theorem tokenize_tokens (text : List Char) :
    (tokenize text).1 = (scan text).filterMap Scanned.token? := rfl

theorem Numeral.Starts.cut {us vs w : List Char} {n : Nat} (h : Starts (us ++ vs) w n)
    (hw : w.length ≤ us.length) : Starts us w n where
  numeral := h.numeral
  initial := List.prefix_of_prefix_length_le h.initial (List.prefix_append us vs) hw
  longest v m hv hinitial := h.longest v m hv (hinitial.trans (List.prefix_append us vs))

namespace Munch

variable {us vs : List Char}

theorem takeWhile_append_of_length_le {test : Char → Bool}
    (h : ((us ++ vs).takeWhile test).length ≤ us.length) :
    (us ++ vs).takeWhile test = us.takeWhile test := by
  rw [List.takeWhile_append] at h ⊢
  split at h
  · next hall =>
      have hnone : vs.takeWhile test = [] := by
        rw [List.length_append] at h
        exact List.length_eq_zero_iff.mp (by omega)
      rw [if_pos hall, hnone, List.append_nil, (List.takeWhile_prefix test).eq_of_length hall]
  · next hall => rw [if_neg hall]

theorem numeral_append {c : Char} (hc : c.isDigit)
    (h : (numeral (c :: us ++ vs)).1.length ≤ (c :: us).length) :
    numeral (c :: us ++ vs) = numeral (c :: us) := by
  obtain ⟨hw, hn⟩ := ((starts_numeral hc (us ++ vs)).cut h).unique (starts_numeral hc us)
  exact Prod.ext hw hn

theorem first_append {c : Char} (h : (first c (us ++ vs)).1.length ≤ (c :: us).length) :
    first c (us ++ vs) = first c us := by
  unfold first at h ⊢
  cases hsingle : single? c with
  | some lexeme => rfl
  | none =>
      simp only [hsingle] at h ⊢
      by_cases hdigit : c.isDigit
      · rw [if_pos hdigit] at h ⊢
        rw [if_pos hdigit, ← List.cons_append, numeral_append hdigit h]
      · by_cases hstart : isSymbolStart c
        · rw [if_neg hdigit, if_pos hstart] at h ⊢
          rw [if_neg hdigit, if_pos hstart, ← List.cons_append, takeWhile_append_of_length_le h]
        · rw [if_neg hdigit, if_neg hstart, if_neg hdigit, if_neg hstart]

theorem runs_blank {c : Char} (hc : Text.isBlank c) (p : Position) (cs : List Char) :
    runs p (c :: cs) = runs (p.step c) cs :=
  ((scans_runs p (c :: cs)).agree (.blank hc (scans_runs (p.step c) cs))).2 rfl

theorem runs_cons {c : Char} (hc : Text.isBlank c = false) (p : Position) (cs : List Char) :
    runs p (c :: cs) = (first c cs).2 ⟨p, p.advance (first c cs).1⟩ ::
      runs (p.advance (first c cs).1) ((c :: cs).drop (first c cs).1.length) :=
  ((scans_runs p (c :: cs)).agree (scans_first hc (scans_runs _ _))).2 rfl

theorem runs_append {p : Position}
    (h : ∀ i ∈ runs p (us ++ vs), ¬i.span.CutBy (p.advance us).offset) :
    runs p (us ++ vs) = runs p us ++ runs (p.advance us) vs := by
  fun_induction runs p us with
  | case1 p => rfl
  | case2 p c us hc ih =>
      rw [List.cons_append, runs_blank hc] at h ⊢
      exact ih h
  | case3 p c us hc run ih =>
      rw [List.cons_append, runs_cons (by simpa using hc)] at h ⊢
      obtain ⟨hfirst, hrest⟩ := List.forall_mem_cons.mp h
      -- What stands here starts before the cut, so that it also ends before it.
      have hlen : (first c (us ++ vs)).1.length ≤ (c :: us).length := by
        rw [span_first, Span.CutBy, Position.advance_offset, Position.advance_offset] at hfirst
        simp only [List.length_cons] at hfirst ⊢
        omega
      have hrun : run ++ (c :: us).drop run.length = c :: us :=
        List.prefix_iff_eq_append.mp (first_initial c us)
      have hdrop : (c :: (us ++ vs)).drop run.length = (c :: us).drop run.length ++ vs :=
        List.drop_append_of_le_length (first_initial c us).length_le
      rw [first_append hlen, hdrop] at hrest ⊢
      rw [← Position.advance_append, hrun] at ih
      rw [ih hrest, List.cons_append]

theorem not_cutBy_of_mem_scan {text : List Char} {i j : Scanned} (hi : i ∈ scan text)
    (hj : j ∈ scan text) :
    ¬j.span.CutBy i.span.start.offset ∧ ¬j.span.CutBy i.span.stop.offset := by
  have hcovers := (Scanner.exact_of_mem_scan hi).1.nonempty
  simp only [Span.CutBy]
  by_cases hij : i = j
  · subst hij
    omega
  · have happart := apart_of_mem_scan hi hj hij
    rw [Scanned.Apart] at happart
    omega

variable {pre mid post : List Char}

theorem scan_pieces (hpre : ∀ i ∈ scan (pre ++ mid ++ post), ¬i.span.CutBy pre.length)
    (hmid : ∀ i ∈ scan (pre ++ mid ++ post), ¬i.span.CutBy (pre ++ mid).length) :
    scan (pre ++ mid ++ post) = scan (pre ++ mid) ++ runs (.advance .start (pre ++ mid)) post ∧
      scan (pre ++ mid) = scan pre ++ runs (.advance .start pre) mid := by
  simp only [← Position.advance_start_offset, scan_eq_runs] at hpre hmid ⊢
  have houter := runs_append hmid
  refine ⟨houter, runs_append fun i hi => hpre i ?_⟩
  rw [houter]
  exact List.mem_append_left _ hi

theorem filter_within_scan {s : Span} (hstart : s.start.offset = pre.length)
    (hstop : s.stop.offset = (pre ++ mid).length)
    (hcut : ∀ i ∈ scan (pre ++ mid ++ post),
      ¬i.span.CutBy s.start.offset ∧ ¬i.span.CutBy s.stop.offset) :
    (scan (pre ++ mid ++ post)).filter (fun i => i.span.Within s) = runs (.advance .start pre) mid := by
  rw [hstart, hstop] at hcut
  obtain ⟨houter, hinner⟩ := scan_pieces (fun i hi => (hcut i hi).1) fun i hi => (hcut i hi).2
  rw [houter, hinner]
  refine Span.filter_within (fun i hi => ?_) (fun i hi => ?_) fun i hi => ?_
  · rintro ⟨hwithin, _⟩
    have hexact := (Scanner.exact_of_mem_scan hi).1
    have hcovers := hexact.nonempty
    have hends := hexact.within
    omega
  · have hmem : i ∈ scan (pre ++ mid) := hinner ▸ List.mem_append_right _ hi
    refine ⟨hstart ▸ (scans_runs _ mid).start_le rfl hi, ?_⟩
    exact hstop ▸ (Scanner.exact_of_mem_scan hmem).1.within
  · rintro ⟨_, hwithin⟩
    have hmem : i ∈ scan (pre ++ mid ++ post) := houter ▸ List.mem_append_right _ hi
    have hcovers := (Scanner.exact_of_mem_scan hmem).1.nonempty
    have hstarts := (scans_runs _ post).start_le rfl hi
    omega

theorem filterMap_token?_bare (found : List Scanned) :
    (found.filterMap Scanned.token?).map Token.bare = (found.map Scanned.bare).filterMap Scanned.token? := by
  induction found with
  | nil => rfl
  | cons i found ih =>
      cases i with
      | ok t => exact congrArg (t.bare :: ·) ih
      | error e => exact ih

theorem filter_within_tokens (s : Span) (found : List Scanned) :
    (found.filterMap Scanned.token?).filter (fun t => t.span.Within s) =
      (found.filter fun i => i.span.Within s).filterMap Scanned.token? := by
  rw [List.filter_filterMap, List.filterMap_filter]
  refine List.filterMap_congr fun i _ => ?_
  cases i with
  | ok t => rfl
  | error e => simp [Scanned.token?]

theorem tokenize_slice {s : Span} (hstart : s.start.offset = pre.length)
    (hstop : s.stop.offset = (pre ++ mid).length)
    (hcut : ∀ i ∈ scan (pre ++ mid ++ post),
      ¬i.span.CutBy s.start.offset ∧ ¬i.span.CutBy s.stop.offset) :
    (tokenize mid).1.map Token.bare =
      ((tokenize (pre ++ mid ++ post)).1.filter fun t => t.span.Within s).map Token.bare := by
  have hmid := ((Scanner.scan_scans mid).agree (scans_runs (.advance .start pre) mid)).1
  rw [tokenize_tokens, tokenize_tokens, filter_within_tokens, filter_within_scan hstart hstop hcut,
    filterMap_token?_bare, filterMap_token?_bare, hmid]

end Munch

end SmallLisp
