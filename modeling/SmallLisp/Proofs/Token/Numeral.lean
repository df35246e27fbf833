import SmallLisp.Proofs.Token.Stray
import Mathlib.Data.Nat.Digits.Defs

namespace SmallLisp

namespace Text

def digits : List Char :=
  ['0', '1', '2', '3', '4', '5', '6', '7', '8', '9', 'a', 'b', 'c', 'd', 'e', 'f']

def number (base : Nat) (ds : List Char) : Nat :=
  Nat.ofDigits base (ds.reverse.map fun d => digits.idxOf d.toLower)

theorem digitValue_of_isHexDigit {c : Char} (h : isHexDigit c) :
    digitValue c = digits.idxOf c.toLower :=
  forall_isHexDigit (P := fun c => digitValue c = digits.idxOf c.toLower) (by decide +kernel) h

theorem valueOf_eq_number (base : Nat) {ds : List Char} (h : ∀ d ∈ ds, isHexDigit d) :
    valueOf base ds = number base ds := by
  rw [number, Nat.ofDigits_eq_foldr, List.foldr_map, List.foldr_reverse, valueOf]
  refine List.foldl_ext _ _ _ fun n d hd => ?_
  rw [digitValue_of_isHexDigit (h d hd), Nat.mul_comm, Nat.add_comm]
  rfl

end Text

/-- A numeral and the number it stands for: digits in base ten or, behind `0x`, in base sixteen. -/
inductive Numeral : List Char → Nat → Prop
  | decimal {ds : List Char} : ds ≠ [] → (∀ d ∈ ds, d.isDigit) → Numeral ds (Text.number 10 ds)
  | hexadecimal {ds : List Char} : ds ≠ [] → (∀ d ∈ ds, Text.isHexDigit d) →
      Numeral ('0' :: 'x' :: ds) (Text.number 16 ds)

namespace Numeral

theorem head_isDigit {w : List Char} {n : Nat} (h : Numeral w n) :
    ∃ c cs, w = c :: cs ∧ c.isDigit := by
  cases h with
  | decimal hne hds =>
      obtain ⟨d, ds, rfl⟩ := List.exists_cons_of_ne_nil hne
      exact ⟨d, ds, rfl, hds d List.mem_cons_self⟩
  | hexadecimal _ _ => exact ⟨'0', _, rfl, rfl⟩

theorem unique {w : List Char} {n m : Nat} (hn : Numeral w n) (hm : Numeral w m) : n = m := by
  cases hn with
  | decimal _ hds =>
      cases hm with
      | decimal _ _ => rfl
      | hexadecimal _ _ => exact absurd (hds 'x' (by simp)) (by decide)
  | hexadecimal _ _ =>
      cases hm with
      | decimal _ hds => exact absurd (hds 'x' (by simp)) (by decide)
      | hexadecimal _ _ => rfl

structure Starts (cs w : List Char) (n : Nat) : Prop where
  numeral : Numeral w n
  initial : w <+: cs
  longest : ∀ v m, Numeral v m → v <+: cs → v.length ≤ w.length

theorem Starts.unique {cs w v : List Char} {n m : Nat} (hw : Starts cs w n) (hv : Starts cs v m) :
    w = v ∧ n = m := by
  have hlength := Nat.le_antisymm (hv.longest w n hw.numeral hw.initial)
    (hw.longest v m hv.numeral hv.initial)
  obtain rfl := (List.prefix_of_prefix_length_le hw.initial hv.initial (Nat.le_of_eq hlength)).eq_of_length
    hlength
  exact ⟨rfl, hw.numeral.unique hv.numeral⟩

end Numeral

namespace Munch

theorem prefix_takeWhile {test : Char → Bool} {ds cs : List Char} (hds : ∀ d ∈ ds, test d)
    (h : ds <+: cs) : ds <+: cs.takeWhile test := by
  obtain ⟨rest, rfl⟩ := h
  rw [List.takeWhile_append_of_pos hds]
  exact List.prefix_append ds _

theorem hexRun_isHexDigit {cs : List Char} {d : Char} (hd : d ∈ hexRun cs) : Text.isHexDigit d := by
  unfold hexRun at hd
  split at hd
  · exact List.all_eq_true.mp List.all_takeWhile d hd
  · cases hd

theorem numeral_of_hexRun {cs : List Char} (h : hexRun cs ≠ []) :
    numeral cs = ('0' :: 'x' :: hexRun cs, Text.valueOf 16 (hexRun cs)) := by
  unfold numeral
  split
  · contradiction
  · next hrun => rw [hrun]

theorem numeral_of_hexRun_eq_nil {cs : List Char} (h : hexRun cs = []) :
    numeral cs = (cs.takeWhile Char.isDigit, Text.valueOf 10 (cs.takeWhile Char.isDigit)) := by
  rw [numeral, h]

theorem numeral_spec {c : Char} (hc : c.isDigit) (cs : List Char) :
    Numeral (numeral (c :: cs)).1 (numeral (c :: cs)).2 := by
  by_cases hhex : hexRun (c :: cs) = []
  · have hdigits : ∀ d ∈ (c :: cs).takeWhile Char.isDigit, d.isDigit :=
      fun d hd => List.all_eq_true.mp List.all_takeWhile d hd
    rw [numeral_of_hexRun_eq_nil hhex,
      Text.valueOf_eq_number 10 fun d hd => isHexDigit_of_isDigit (hdigits d hd)]
    exact .decimal (by simp [hc]) hdigits
  · rw [numeral_of_hexRun hhex, Text.valueOf_eq_number 16 fun d => hexRun_isHexDigit]
    exact .hexadecimal hhex fun d => hexRun_isHexDigit

theorem length_le_numeral {cs v : List Char} {m : Nat} (hv : Numeral v m) (h : v <+: cs) :
    v.length ≤ (numeral cs).1.length := by
  cases hv with
  | decimal _ hds =>
      have hrun := (prefix_takeWhile hds h).length_le
      by_cases hhex : hexRun cs = []
      · rwa [numeral_of_hexRun_eq_nil hhex]
      · -- Digits of base ten end at the `x`.
        have hone : (cs.takeWhile Char.isDigit).length ≤ 1 := by
          unfold hexRun at hhex
          split at hhex
          · exact Nat.le_refl 1
          · contradiction
        rw [numeral_of_hexRun hhex, List.length_cons, List.length_cons]
        omega
  | @hexadecimal ds hne hds =>
      obtain ⟨rest, rfl⟩ := h
      have hrun : ds <+: hexRun ('0' :: 'x' :: ds ++ rest) :=
        prefix_takeWhile hds (List.prefix_append ds rest)
      have hhex : hexRun ('0' :: 'x' :: ds ++ rest) ≠ [] := by
        intro hnil
        rw [hnil] at hrun
        exact hne (List.prefix_nil.mp hrun)
      rw [numeral_of_hexRun hhex]
      simpa using hrun.length_le

theorem starts_numeral {c : Char} (hc : c.isDigit) (cs : List Char) :
    Numeral.Starts (c :: cs) (numeral (c :: cs)).1 (numeral (c :: cs)).2 :=
  ⟨numeral_spec hc cs, numeral_initial _, fun _ _ => length_le_numeral⟩

theorem first_of_isDigit {c : Char} (hc : c.isDigit) (cs : List Char) :
    first c cs = ((numeral (c :: cs)).1, number (numeral (c :: cs)).2) := by
  have hsingle : single? c = none :=
    Text.forall_isDigit (P := fun c => single? c = none) (by decide) hc
  rw [first, hsingle]
  exact if_pos hc

theorem first_of_starts {cs w : List Char} {n : Nat} (h : Numeral.Starts cs w n) :
    ∃ c rest, cs = c :: rest ∧ Text.isBlank c = false ∧ first c rest = (w, number n) := by
  obtain ⟨c, ds, rfl, hc⟩ := h.numeral.head_isDigit
  obtain ⟨rest, rfl⟩ := h.initial
  obtain ⟨hw, hn⟩ := h.unique (starts_numeral hc (ds ++ rest))
  refine ⟨c, ds ++ rest, rfl, isBlank_of_isSymbolChar (isSymbolChar_of_isDigit hc), ?_⟩
  rw [first_of_isDigit hc, hw, hn]

end Munch

def Scanned.isNumeric : Scanned → Bool
  | .ok ⟨.number _, _⟩ => true
  | .error ⟨.overflow, _⟩ => true
  | _ => false

namespace Munch

theorem isDigit_of_isNumeric {c : Char} {cs : List Char} {span : Span}
    (h : Scanned.isNumeric ((first c cs).2 span)) : c.isDigit := by
  rcases first_cases c cs with ⟨lexeme, hsingle, hfirst⟩ | ⟨hdigit, _⟩ | ⟨_, hfirst⟩ |
    ⟨_, _, _, hfirst⟩
  · rw [hfirst] at h
    unfold single? at hsingle
    split at hsingle <;> cases hsingle <;> cases h
  · exact hdigit
  · rw [hfirst] at h
    cases h
  · rw [hfirst] at h
    cases h

theorem runs_eq_items (p : Position) (cs : List Char) :
    runs p cs = (Scanner.items ⟨cs, p, false⟩).1 :=
  ((scans_runs p cs).agree (Scanner.itemsWithin_scans _ cs p (Nat.lt_succ_self _))).2 rfl

end Munch

namespace Numeral

open Munch (number)

/-- A numeral that stands in a text behind the characters `pre`, as far as it goes and within nothing else
that is found. -/
structure Stands (text pre w post : List Char) (n : Nat) : Prop where
  text_eq : text = pre ++ (w ++ post)
  starts : Starts (w ++ post) w n
  free : ∀ i ∈ scan text, i.span.start.offset < pre.length → ¬i.span.Holds pre.length

def span (pre w : List Char) : Span := ⟨.advance .start pre, .advance .start (pre ++ w)⟩

variable {text pre w post : List Char} {n : Nat}

theorem number_eq (n : Nat) (s : Span) : number n s =
    if n < 2 ^ 63 then .ok ⟨.number (Int64.ofNat n), s⟩ else .error ⟨.overflow, s⟩ :=
  if_congr Nat.lt_succ_iff.symm rfl rfl

theorem span_number (n : Nat) (s : Span) : Scanned.span (number n s) = s := by
  rw [number_eq]
  split <;> rfl

theorem Stands.exists_before (h : Stands text pre w post n) : ∃ before, scan text =
    before ++ number n (span pre w) ::
      (Scanner.items ⟨post, .advance .start (pre ++ w), false⟩).1 := by
  obtain ⟨rfl, hstarts, hfree⟩ := h
  obtain ⟨c, rest, hcs, hc, hfirst⟩ := Munch.first_of_starts hstarts
  have hk : (pre ++ (w ++ post))[pre.length]? = some c := by simp [hcs]
  obtain ⟨i, hi, hholds⟩ := Munch.exists_holds hk hc
  have hstart : ¬i.span.start.offset < pre.length := fun hlt => hfree i hi hlt hholds
  obtain ⟨before, after, hscan⟩ := List.append_of_mem hi
  rw [Munch.scan_eq_runs] at hscan
  obtain ⟨pre', d, rest', htext, _, rfl, rfl⟩ := Munch.runs_eq_append_cons before hscan
  rw [Munch.span_first, Position.advance_start_offset] at hstart
  rw [Munch.span_first, Span.Holds, Position.advance_start_offset] at hholds
  obtain ⟨rfl, hrest⟩ := List.append_inj htext (by omega)
  obtain ⟨rfl, rfl⟩ := List.cons.inj (hcs.symm.trans hrest)
  refine ⟨before, ?_⟩
  rw [Munch.scan_eq_runs, hscan, hfirst, ← hcs, List.drop_left, Munch.runs_eq_items]
  rfl

theorem exists_stands {i : Scanned} (hi : i ∈ scan text) (hnumeric : i.isNumeric) :
    ∃ pre w post n, Stands text pre w post n ∧ i = number n (span pre w) := by
  have hmem := hi
  rw [Munch.scan_eq_runs] at hmem
  obtain ⟨pre, c, rest, htext, _, heq⟩ := Munch.exists_of_mem_runs hmem
  have hdigit : c.isDigit := by
    rw [heq] at hnumeric
    exact Munch.isDigit_of_isNumeric hnumeric
  rw [Munch.first_of_isDigit hdigit] at heq
  have hstarts := Munch.starts_numeral hdigit rest
  generalize Munch.numeral (c :: rest) = found at heq hstarts
  obtain ⟨w, n⟩ := found
  obtain ⟨post, hpost⟩ := hstarts.initial
  rw [← hpost] at hstarts htext
  refine ⟨pre, w, post, n, ⟨htext, hstarts, fun j hj hlt hholds => ?_⟩, heq⟩
  -- What starts earlier ends before the numeral starts.
  have hstart : i.span.start.offset = pre.length := by
    rw [heq, span_number]
    exact Position.advance_start_offset pre
  have hne : j ≠ i := by
    rintro rfl
    omega
  have hcovers := (Scanner.exact_of_mem_scan hi).1.nonempty
  obtain ⟨_, hstop⟩ := hholds
  rcases Munch.apart_of_mem_scan hj hi hne with hapart | hapart
  · omega
  · omega

theorem Stands.overflow_mem_iff (h : Stands text pre w post n) :
    ⟨.overflow, span pre w⟩ ∈ (tokenize text).2 ↔ 2 ^ 63 ≤ n := by
  obtain ⟨before, hscan⟩ := h.exists_before
  have hmem : number n (span pre w) ∈ scan text := by
    rw [hscan]
    exact List.mem_append_right _ List.mem_cons_self
  rw [Scanner.mem_errors_iff]
  constructor
  · intro hoverflow
    by_contra hlt
    rw [number_eq, if_pos (Nat.lt_of_not_le hlt)] at hmem
    -- A number and an overflow would stand at one place.
    have hapart := Munch.apart_of_mem_scan hmem hoverflow (by simp)
    have hcovers := (Scanner.exact_of_mem_scan hoverflow).1.nonempty
    simp only [Scanned.Apart, Scanned.span] at hapart hcovers
    omega
  · intro hle
    rwa [number_eq, if_neg (Nat.not_lt_of_le hle)] at hmem

/-- A numeral that stands in a text is a number if it is below the limit of signed words and an overflow
else, and behind it the scanner goes on. All numbers and all overflows of a text come from numerals. -/
theorem numerals_have_their_values (text : List Char) :
    (∀ pre w post n, Stands text pre w post n → ∃ before, scan text =
      before ++ (if n < 2 ^ 63 then .ok ⟨.number (Int64.ofNat n), span pre w⟩
        else .error ⟨.overflow, span pre w⟩) ::
          (Scanner.items ⟨post, .advance .start (pre ++ w), false⟩).1) ∧
      (∀ t ∈ (tokenize text).1, ∀ value, t.lexeme = .number value →
        ∃ pre w post n, Stands text pre w post n ∧ t.span = span pre w ∧ n < 2 ^ 63 ∧
          value.toInt = n) ∧
      (∀ e ∈ (tokenize text).2, e.cause = .overflow →
        ∃ pre w post n, Stands text pre w post n ∧ e.span = span pre w) ∧
      ∀ pre w post n, Stands text pre w post n →
        (⟨.overflow, span pre w⟩ ∈ (tokenize text).2 ↔ 2 ^ 63 ≤ n) := by
  refine ⟨fun pre w post n h => ?_, ?_, ?_, fun pre w post n h => h.overflow_mem_iff⟩
  · rw [← number_eq]
    exact h.exists_before
  · rintro ⟨lexeme, s⟩ ht value rfl
    obtain ⟨pre, w, post, n, hstands, heq⟩ := exists_stands (Scanner.mem_tokens_iff.mp ht) rfl
    rw [number_eq] at heq
    split at heq
    · next hlt =>
        cases heq
        exact ⟨pre, w, post, n, hstands, rfl, hlt, Int64.toInt_ofNat_of_lt hlt⟩
    · cases heq
  · rintro ⟨cause, s⟩ he rfl
    obtain ⟨pre, w, post, n, hstands, heq⟩ := exists_stands (Scanner.mem_errors_iff.mp he) rfl
    rw [number_eq] at heq
    split at heq
    · cases heq
    · cases heq
      exact ⟨pre, w, post, n, hstands, rfl⟩

theorem numerals_have_their_values_at_limit :
    -- A bracket, the first numeral that is too large, with a symbol right behind it.
    let w := '0' :: 'x' :: '8' :: List.replicate 15 '0'
    let text := ['('] ++ (w ++ ['x'])
    Stands text ['('] w ['x'] (2 ^ 63) ∧ ⟨.overflow, span ['('] w⟩ ∈ (tokenize text).2 := by
  intro w text
  have hnumeral : Munch.numeral (w ++ ['x']) = (w, 2 ^ 63) := by decide +kernel
  have hstarts : Starts (w ++ ['x']) (Munch.numeral (w ++ ['x'])).1 (Munch.numeral (w ++ ['x'])).2 :=
    Munch.starts_numeral (by decide) _
  rw [hnumeral] at hstarts
  have hfree : ∀ i ∈ scan text, i.span.start.offset < 1 → ¬i.span.Holds 1 := by decide +kernel
  have hstands : Stands text ['('] w ['x'] (2 ^ 63) := ⟨rfl, hstarts, hfree⟩
  obtain ⟨_, _, _, hoverflow⟩ := numerals_have_their_values text
  exact ⟨hstands, (hoverflow _ _ _ _ hstands).mpr (Nat.le_refl _)⟩

end Numeral

end SmallLisp
