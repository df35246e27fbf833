import Mathlib.Data.String.Basic

namespace SmallLisp.Text

def bytes (s : String) : List UInt8 := s.toUTF8.data.toList

theorem bytes_eq_flatMap (s : String) : bytes s = s.toList.flatMap String.utf8EncodeChar := by
  simp only [bytes, String.toUTF8, ← String.utf8Encode_toList, List.utf8Encode, List.data_toByteArray]

theorem toNat_val_lt (c : Char) : c.val.toNat < 0x110000 := by
  have h := c.valid
  simp only [UInt32.isValidChar, Nat.isValidChar] at h
  omega

theorem encoded_lt {c d : Char} (h : c < d) (bytes bytes' : List UInt8) :
    String.utf8EncodeChar c ++ bytes < String.utf8EncodeChar d ++ bytes' := by
  have hcode : c.val.toNat < d.val.toNat := UInt32.lt_iff_toNat_lt.mp (Char.lt_def.mp h)
  have hlimit := toNat_val_lt d
  -- Every byte behind the leading one has six bits, those of a digit in base sixty-four.
  have hdigits (n : Nat) : n / 4096 = n / 64 / 64 ∧ n / 262144 = n / 64 / 64 / 64 := by omega
  simp only [String.utf8EncodeChar, hdigits]
  generalize c.val.toNat = v at hcode ⊢
  generalize d.val.toNat = w at hcode hlimit ⊢
  split_ifs <;>
    simp only [List.cons_append, List.nil_append, List.cons_lt_cons_iff, UInt8.lt_iff_toNat_lt,
      ← UInt8.toNat_inj, UInt8.toNat_ofNat'] <;>
    omega

theorem flatMap_encoded_lt {cs ds : List Char} (h : cs < ds) :
    cs.flatMap String.utf8EncodeChar < ds.flatMap String.utf8EncodeChar := by
  induction List.lex_lt.mpr h with
  | @nil d ds =>
      cases hd : String.utf8EncodeChar d with
      | nil => exact absurd hd String.utf8EncodeChar_ne_nil
      | cons b bs => simp [hd]
  | rel hcd => exact encoded_lt hcd _ _
  | cons hlt ih => exact List.append_left_lt (ih (List.lex_lt.mp hlt))

theorem le_iff_bytes_le (s t : String) : s ≤ t ↔ bytes s ≤ bytes t := by
  have hlt {s t : String} (h : s < t) : bytes s < bytes t := by
    simp only [bytes_eq_flatMap]
    exact flatMap_encoded_lt (String.lt_iff_toList_lt.mp h)
  constructor
  · intro h
    rcases h.lt_or_eq with h | rfl
    · exact List.le_of_lt (hlt h)
    · exact List.le_refl _
  · intro h
    by_contra hts
    exact List.not_le.mpr (hlt (not_le.mp hts)) h

theorem mergeSort_ordered {α : Type} (key : α → String) (xs : List α) :
    (xs.mergeSort fun x y => key x ≤ key y).Pairwise fun x y => key x ≤ key y := by
  have htrans (x y z : α) (hxy : decide (key x ≤ key y) = true) (hyz : decide (key y ≤ key z) = true) :
      decide (key x ≤ key z) = true :=
    decide_eq_true ((of_decide_eq_true hxy).trans (of_decide_eq_true hyz))
  have htotal (x y : α) : (decide (key x ≤ key y) || decide (key y ≤ key x)) = true := by
    rw [Bool.or_eq_true, decide_eq_true_eq, decide_eq_true_eq]
    exact le_total (key x) (key y)
  exact (List.pairwise_mergeSort htrans htotal xs).imp of_decide_eq_true

end SmallLisp.Text
