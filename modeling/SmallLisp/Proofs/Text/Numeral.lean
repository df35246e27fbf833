import SmallLisp.Text.Numeral
import Mathlib.Data.List.Basic

namespace SmallLisp.Text

theorem forall_toNat_lt {bound : Nat} {P : Char → Prop} (h : ∀ n < bound, P (Char.ofNat n)) {c : Char}
    (hc : c.toNat < bound) : P c := by
  have hp := h c.toNat hc
  rwa [Char.ofNat_toNat] at hp

theorem forall_isDigit {P : Char → Prop}
    (h : ∀ n < 58, (Char.ofNat n).isDigit → P (Char.ofNat n)) {c : Char} (hc : c.isDigit) : P c := by
  have hlt : c.toNat < 58 := by
    simp only [Char.isDigit, Bool.and_eq_true, decide_eq_true_eq] at hc
    exact Nat.lt_succ_of_le hc.2
  exact forall_toNat_lt (P := fun c => c.isDigit → P c) h hlt hc

theorem forall_isHexDigit {P : Char → Prop}
    (h : ∀ n < 103, isHexDigit (Char.ofNat n) → P (Char.ofNat n)) {c : Char} (hc : isHexDigit c) :
    P c := by
  have hlt : c.toNat < 103 := by
    simp only [isHexDigit, Bool.or_eq_true, Bool.and_eq_true, decide_eq_true_eq] at hc
    rcases hc with (⟨_, hc⟩ | ⟨_, hc⟩) | ⟨_, hc⟩ <;>
      exact Nat.lt_of_le_of_lt (UInt32.le_iff_toNat_le.mp hc) (by decide)
  exact forall_toNat_lt (P := fun c => isHexDigit c → P c) h hlt hc

theorem digitValue_of_isDigit {c : Char} (h : c.isDigit) : digitValue c = c.toNat - 48 :=
  forall_isDigit (P := fun c => digitValue c = c.toNat - 48) (by decide) h

theorem isDigit_of_mem_toDigits {n : Nat} {c : Char} (h : c ∈ Nat.toDigits 10 n) : c.isDigit :=
  Nat.isDigit_of_mem_toDigits (by decide) (by decide) h

theorem valueOf_toDigits (n : Nat) : valueOf 10 (Nat.toDigits 10 n) = n := by
  have hfold : valueOf 10 (Nat.toDigits 10 n) = Nat.ofDigitChars 10 (Nat.toDigits 10 n) 0 := by
    unfold valueOf Nat.ofDigitChars
    apply List.foldl_ext
    intro acc c hc
    rw [digitValue_of_isDigit (isDigit_of_mem_toDigits hc), Nat.mul_comm]
    rfl
  rw [hfold, Nat.ofDigitChars_ten_toDigits]

theorem numeralValue_of_isDigit {cs : List Char} (h : ∀ c ∈ cs, c.isDigit) :
    numeralValue cs = valueOf 10 cs := by
  unfold numeralValue
  split
  · next c cs =>
      have hx := h 'x' (by simp)
      exact absurd hx (by decide)
  · rfl

theorem numeral?_toDigits {n : Nat} (h : n ≤ maxNumeral) :
    numeral? (Nat.toDigits 10 n) = some (Int64.ofNat n) := by
  have hn : numeralValue (Nat.toDigits 10 n) = n :=
    (numeralValue_of_isDigit fun _ hc => isDigit_of_mem_toDigits hc).trans (valueOf_toDigits n)
  simp only [numeral?, hn, if_pos h]

theorem nonneg_of_numeral? {cs : List Char} {v : Int64} (h : numeral? cs = some v) : 0 ≤ v := by
  unfold numeral? at h
  obtain ⟨hle, h⟩ := Option.ite_none_right_eq_some.mp h
  have hlt : numeralValue cs < 2 ^ 63 := Nat.lt_succ_of_le hle
  rw [← Option.some.inj h, Int64.le_iff_toInt_le, Int64.toInt_ofNat_of_lt hlt, Int64.toInt_zero]
  exact Int.natCast_nonneg _

end SmallLisp.Text
