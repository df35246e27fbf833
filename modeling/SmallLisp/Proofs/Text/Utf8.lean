import SmallLisp.Text.Utf8

namespace SmallLisp.Text

theorem sequence?_append_newline (lead size least : Nat) (bytes rest : List UInt8) :
    sequence? lead size least (bytes ++ 10 :: rest) = sequence? lead size least bytes := by
  by_cases hsize : size ≤ bytes.length
  · unfold sequence?
    rw [List.take_append_of_le_length hsize]
  · -- A sequence that needs more bytes than there are would have to continue with the newline.
    have hlong : (10 : UInt8) ∈ (bytes ++ 10 :: rest).take size := by
      obtain ⟨k, hk⟩ := Nat.exists_eq_add_of_lt (Nat.lt_of_not_le hsize)
      rw [hk, List.take_append]
      simp [show bytes.length + k + 1 - bytes.length = k + 1 by omega]
    have hall : ¬((bytes ++ 10 :: rest).take size).all isContinuation := by
      intro h
      exact absurd (List.all_eq_true.mp h 10 hlong) (by decide)
    have hshort : (bytes.take size).length ≠ size := by
      rw [List.length_take]
      omega
    unfold sequence?
    rw [if_neg fun h => hall h.2.1, if_neg fun h => hshort h.1]

theorem sequence?_size {lead size least : Nat} {bytes : List UInt8} {c : Char} {n : Nat}
    (h : sequence? lead size least bytes = some (c, n)) : n ≤ bytes.length := by
  unfold sequence? at h
  obtain ⟨hc, h⟩ := Option.ite_none_right_eq_some.mp h
  obtain ⟨_, h⟩ := Option.dite_none_right_eq_some.mp h
  have hlen : (bytes.take size).length = size := hc.1
  have hn : size = n := congrArg Prod.snd (Option.some.inj h)
  rw [List.length_take] at hlen
  omega

theorem firstChar_append_newline (b : UInt8) (bytes rest : List UInt8) :
    firstChar b (bytes ++ 10 :: rest) = firstChar b bytes := by
  simp only [firstChar, sequence?_append_newline]

theorem firstChar_size (b : UInt8) (bytes : List UInt8) : (firstChar b bytes).2 ≤ bytes.length := by
  have hsize (found : Option (Char × Nat)) (h : ∀ c n, found = some (c, n) → n ≤ bytes.length) :
      (found.getD (replacement, 0)).2 ≤ bytes.length := by
    cases found with
    | none => exact Nat.zero_le _
    | some p => exact h p.1 p.2 rfl
  apply hsize
  intro c n h
  split at h
  · cases h
    exact Nat.zero_le _
  · split at h
    · cases h
    · split at h
      · exact sequence?_size h
      · split at h
        · exact sequence?_size h
        · split at h
          · exact sequence?_size h
          · cases h

theorem decodeFrom_append_newline (skip : Nat) (bytes rest : List UInt8)
    (h : skip ≤ bytes.length) :
    decodeFrom skip (bytes ++ 10 :: rest) = decodeFrom skip bytes ++ '\n' :: decode rest := by
  induction bytes generalizing skip with
  | nil =>
      obtain rfl : skip = 0 := Nat.le_zero.mp h
      rfl
  | cons b bytes ih =>
      cases skip with
      | succ skip => exact ih skip (by simpa using h)
      | zero =>
          simp only [List.cons_append, decodeFrom, firstChar_append_newline]
          rw [ih _ (firstChar_size b bytes)]

theorem decode_append_newline (bytes rest : List UInt8) :
    decode (bytes ++ 10 :: rest) = decode bytes ++ '\n' :: decode rest :=
  decodeFrom_append_newline 0 bytes rest (Nat.zero_le _)

def ascii (cs : List Char) : List UInt8 :=
  cs.map fun c => UInt8.ofNat c.toNat

theorem firstChar_ascii {c : Char} (h : c.toNat < 0x80) (bytes : List UInt8) :
    firstChar (UInt8.ofNat c.toNat) bytes = (c, 0) := by
  have hbyte : (UInt8.ofNat c.toNat).toNat = c.toNat :=
    UInt8.toNat_ofNat_of_lt (Nat.lt_trans h (by decide))
  simp [firstChar, hbyte, h]

theorem decode_ascii {cs : List Char} (h : ∀ c ∈ cs, c.toNat < 0x80) : decode (ascii cs) = cs := by
  induction cs with
  | nil => rfl
  | cons c cs ih =>
      obtain ⟨hc, hcs⟩ := List.forall_mem_cons.mp h
      have hrest : decodeFrom 0 (ascii cs) = cs := ih hcs
      simp only [decode, ascii, List.map_cons, decodeFrom, firstChar_ascii hc]
      exact congrArg (c :: ·) hrest

end SmallLisp.Text
