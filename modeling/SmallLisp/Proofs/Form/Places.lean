import SmallLisp.Proofs.Form.Tokens
import SmallLisp.Proofs.Token.Tiling

namespace SmallLisp

namespace Span

def LiesIn (text : List Char) (s : Span) : Prop :=
  ∃ i j, i ≤ j ∧ j ≤ text.length ∧ s = ⟨.behind text i, .behind text j⟩

theorem LiesIn.join {text : List Char} {s t : Span} (hs : s.LiesIn text) (ht : t.LiesIn text) :
    (s.join t).LiesIn text := by
  obtain ⟨i, j, hij, hj, rfl⟩ := hs
  obtain ⟨k, l, hkl, hl, rfl⟩ := ht
  have hi := Position.behind_offset (Nat.le_trans hij hj)
  have hk := Position.behind_offset (Nat.le_trans hkl hl)
  have hj' := Position.behind_offset hj
  have hl' := Position.behind_offset hl
  refine ⟨min i k, max j l, by omega, by omega, ?_⟩
  simp only [Span.join, hi, hk, hj', hl', Int.ofNat_lt, mk.injEq]
  refine ⟨?_, ?_⟩
  · by_cases h : k < i
    · rw [if_pos h, Nat.min_eq_right (Nat.le_of_lt h)]
    · rw [if_neg h, Nat.min_eq_left (Nat.le_of_not_lt h)]
  · by_cases h : j < l
    · rw [if_pos h, Nat.max_eq_right (Nat.le_of_lt h)]
    · rw [if_neg h, Nat.max_eq_left (Nat.le_of_not_lt h)]

theorem Exact.liesIn {text : List Char} {s : Span} (h : s.Exact text) : s.LiesIn text := by
  have hlt := h.nonempty
  have hnonneg := h.nonneg
  have hwithin := h.within
  refine ⟨s.start.offset.toNat, s.stop.offset.toNat, by omega, by omega, ?_⟩
  rw [← h.start_eq, ← h.stop_eq]

end Span

namespace Scanner

theorem liesIn_of_mem_scan {text : List Char} {t : Token} (ht : .ok t ∈ scan text) :
    t.span.LiesIn text :=
  (exact_of_mem_scan ht).1.liesIn

end Scanner

namespace Form

def LiesIn (text : List Char) (f : Form) : Prop := ∀ t ∈ f.tokens, t.span.LiesIn text

variable {text : List Char}

theorem liesIn_of_mem_parse {f : Form} (hf : .form f ∈ parse text) : f.LiesIn text :=
  fun _ ht => Scanner.liesIn_of_mem_scan (Parser.mem_scan_of_form_mem_parse hf ht)

end Form

end SmallLisp
