import SmallLisp.Lex.Lexer

namespace SmallLisp

namespace Pattern

mutual

def avoids (c : Char) : Pattern → Bool
  | .all ps => allAvoid c ps
  | .any ps => allAvoid c ps
  | .seq ps => allAvoid c ps
  | .many p => p.avoids c
  | .literal ds => !ds.contains c
  | .within lowest highest => !(decide (lowest ≤ c) && decide (c ≤ highest))
  | .satisfy test => !test c
  | .eof => true

def allAvoid (c : Char) : List Pattern → Bool
  | [] => true
  | p :: ps => p.avoids c && allAvoid c ps

end

theorem repeatWidth_le (width : List Char → Nat) (skip : Nat) (cs : List Char) :
    repeatWidth width skip cs ≤ cs.length := by
  induction cs generalizing skip with
  | nil => cases skip <;> simp [repeatWidth]
  | cons c cs ih =>
      cases skip with
      | succ skip => simpa [repeatWidth] using ih skip
      | zero =>
          simp only [repeatWidth]
          split
          · exact Nat.zero_le _
          · simpa using ih _

mutual

theorem width_le (p : Pattern) (c : Char) (cs : List Char) : p.width (c :: cs) ≤ cs.length + 1 := by
  match p with
  | .all ps => simpa [width] using allWidth_le ps c cs 0 (Nat.zero_le _)
  | .any ps => simpa [width] using anyWidth_le ps c cs
  | .seq ps => simpa [width] using seqWidth_le ps (c :: cs) 0
  | .many p => simpa [width] using repeatWidth_le p.width 0 (c :: cs)
  | .literal ds =>
      simp only [width]
      split
      · next h => exact (List.isPrefixOf_iff_prefix.mp h).length_le
      · exact Nat.zero_le _
  | .within lowest highest =>
      simp only [width]
      split <;> omega
  | .satisfy test =>
      simp only [width]
      split <;> omega
  | .eof => exact Nat.zero_le _

theorem allWidth_le (ps : List Pattern) (c : Char) (cs : List Char) (longest : Nat)
    (h : longest ≤ cs.length + 1) : allWidth ps (c :: cs) longest ≤ cs.length + 1 := by
  match ps with
  | [] => simpa [allWidth] using h
  | p :: ps =>
      have hp := width_le p c cs
      simp only [allWidth]
      split
      · exact Nat.zero_le _
      · next n hn => exact allWidth_le ps c cs _ (by omega)

theorem anyWidth_le (ps : List Pattern) (c : Char) (cs : List Char) :
    anyWidth ps (c :: cs) ≤ cs.length + 1 := by
  match ps with
  | [] => exact Nat.zero_le _
  | p :: ps =>
      have hp := width_le p c cs
      simp only [anyWidth]
      split
      · exact anyWidth_le ps c cs
      · omega

theorem seqWidth_le (ps : List Pattern) (cs : List Char) (taken : Nat) :
    seqWidth ps cs taken ≤ taken + cs.length := by
  match ps, cs with
  | [], _ => simp [seqWidth]
  | _ :: _, [] => simp [seqWidth]
  | p :: ps, c :: cs =>
      have hp := width_le p c cs
      simp only [seqWidth]
      split
      · exact Nat.zero_le _
      · next n hn =>
          have hps := seqWidth_le ps ((c :: cs).drop (n + 1)) (taken + (n + 1))
          simp only [List.length_drop, List.length_cons] at hps ⊢
          omega

end

mutual

theorem width_of_avoids {p : Pattern} {c : Char} (h : p.avoids c) (cs : List Char) :
    p.width (c :: cs) = 0 := by
  match p with
  | .all [] => rfl
  | .all (p :: ps) =>
      simp only [avoids, allAvoid, Bool.and_eq_true] at h
      simp [width, allWidth, width_of_avoids h.1 cs]
  | .any ps =>
      have hps : allAvoid c ps := by simpa [avoids] using h
      simpa only [width] using anyWidth_of_avoid hps cs
  | .seq [] => rfl
  | .seq (p :: ps) =>
      simp only [avoids, allAvoid, Bool.and_eq_true] at h
      simp [width, seqWidth, width_of_avoids h.1 cs]
  | .many p =>
      have hp : p.avoids c := by simpa [avoids] using h
      simp [width, repeatWidth, width_of_avoids hp cs]
  | .literal [] => simp [width]
  | .literal (d :: ds) =>
      have hd : d ≠ c := fun e => by simp [avoids, e] at h
      simp [width, hd]
  | .within lowest highest =>
      simp only [avoids, Bool.not_eq_true', Bool.and_eq_false_iff, decide_eq_false_iff_not] at h
      simp only [width, ite_eq_right_iff]
      rintro ⟨hl, hh⟩
      exact (h.elim (· hl) (· hh)).elim
  | .satisfy test =>
      have ht : test c = false := by simpa [avoids] using h
      simp [width, ht]
  | .eof => rfl

theorem anyWidth_of_avoid {ps : List Pattern} {c : Char} (h : allAvoid c ps) (cs : List Char) :
    anyWidth ps (c :: cs) = 0 := by
  match ps with
  | [] => rfl
  | p :: ps =>
      simp only [allAvoid, Bool.and_eq_true] at h
      simp only [anyWidth, width_of_avoids h.1 cs]
      exact anyWidth_of_avoid h.2 cs

end

theorem isPrefixOf_append_cons {ds : List Char} {c : Char} (h : c ∉ ds) (cs rest : List Char) :
    ds.isPrefixOf (cs ++ c :: rest) = ds.isPrefixOf cs := by
  induction ds generalizing cs with
  | nil => simp
  | cons d ds ih =>
      have hd : d ≠ c := fun e => h (by simp [e])
      cases cs with
      | nil => simp [List.isPrefixOf, hd]
      | cons x cs => simp [List.isPrefixOf, ih (fun m => h (List.mem_cons_of_mem d m)) cs]

theorem repeatWidth_append {width : List Char → Nat} {c : Char}
    (hle : ∀ x xs, width (x :: xs) ≤ xs.length + 1) (hc : ∀ cs, width (c :: cs) = 0) (rest : List Char)
    (hw : ∀ x xs, width (x :: xs ++ c :: rest) = width (x :: xs)) (skip : Nat) (cs : List Char)
    (hskip : skip ≤ cs.length) :
    repeatWidth width skip (cs ++ c :: rest) = repeatWidth width skip cs := by
  induction cs generalizing skip with
  | nil =>
      obtain rfl : skip = 0 := Nat.le_zero.mp hskip
      simp [repeatWidth, hc]
  | cons x xs ih =>
      cases skip with
      | succ skip => simpa [repeatWidth] using ih skip (by simpa using hskip)
      | zero =>
          have hx := hw x xs
          have hl := hle x xs
          simp only [List.cons_append] at hx ⊢
          simp only [repeatWidth, hx]
          cases hn : width (x :: xs) with
          | zero => rfl
          | succ n => exact congrArg (· + 1) (ih n (by omega))

mutual

theorem width_append {p : Pattern} {c : Char} (h : p.avoids c) (x : Char) (xs rest : List Char) :
    p.width (x :: xs ++ c :: rest) = p.width (x :: xs) := by
  match p with
  | .all ps =>
      have hps : allAvoid c ps := by simpa [avoids] using h
      simpa only [width] using allWidth_append hps x xs rest 0
  | .any ps =>
      have hps : allAvoid c ps := by simpa [avoids] using h
      simpa only [width] using anyWidth_append hps x xs rest
  | .seq ps =>
      have hps : allAvoid c ps := by simpa [avoids] using h
      simpa only [width] using seqWidth_append hps (x :: xs) rest 0
  | .many p =>
      have hp : p.avoids c := by simpa [avoids] using h
      have hr := repeatWidth_append (width_le p) (width_of_avoids hp) rest
        (fun y ys => width_append hp y ys rest) 0 (x :: xs) (Nat.zero_le _)
      simpa only [width] using hr
  | .literal ds =>
      have hc : c ∉ ds := by simpa [avoids] using h
      simp only [width, isPrefixOf_append_cons hc]
  | .within lowest highest => rfl
  | .satisfy test => rfl
  | .eof => rfl

theorem allWidth_append {ps : List Pattern} {c : Char} (h : allAvoid c ps) (x : Char)
    (xs rest : List Char) (longest : Nat) :
    allWidth ps (x :: xs ++ c :: rest) longest = allWidth ps (x :: xs) longest := by
  match ps with
  | [] => rfl
  | p :: ps =>
      simp only [allAvoid, Bool.and_eq_true] at h
      simp only [allWidth, width_append h.1 x xs rest]
      split
      · rfl
      · exact allWidth_append h.2 x xs rest _

theorem anyWidth_append {ps : List Pattern} {c : Char} (h : allAvoid c ps) (x : Char)
    (xs rest : List Char) : anyWidth ps (x :: xs ++ c :: rest) = anyWidth ps (x :: xs) := by
  match ps with
  | [] => rfl
  | p :: ps =>
      simp only [allAvoid, Bool.and_eq_true] at h
      simp only [anyWidth, width_append h.1 x xs rest]
      split
      · exact anyWidth_append h.2 x xs rest
      · rfl

theorem seqWidth_append {ps : List Pattern} {c : Char} (h : allAvoid c ps) (cs rest : List Char)
    (taken : Nat) : seqWidth ps (cs ++ c :: rest) taken = seqWidth ps cs taken := by
  match ps, cs with
  | [], _ => simp [seqWidth]
  | p :: ps, [] =>
      simp only [allAvoid, Bool.and_eq_true] at h
      simp [seqWidth, width_of_avoids h.1]
  | p :: ps, x :: xs =>
      simp only [allAvoid, Bool.and_eq_true] at h
      have hp := width_append h.1 x xs rest
      have hl := width_le p x xs
      simp only [List.cons_append] at hp ⊢
      simp only [seqWidth, hp]
      split
      · rfl
      · next n hn =>
          have hps := seqWidth_append h.2 ((x :: xs).drop (n + 1)) rest (taken + (n + 1))
          rwa [← List.drop_append_of_le_length (by simp; omega)] at hps

end

theorem not_mem_take_width {p : Pattern} {c : Char} (h : p.avoids c) (cs : List Char) :
    c ∉ cs.take (p.width cs) := by
  intro hc
  obtain ⟨xs, rest, rfl, hxs⟩ := List.eq_append_cons_of_mem (List.mem_of_mem_take hc)
  cases xs with
  | nil => simp [width_of_avoids h] at hc
  | cons x xs =>
      have hle := width_le p x xs
      rw [width_append h, List.take_append_of_le_length (by simpa using hle)] at hc
      exact hxs (List.mem_of_mem_take hc)

end Pattern

end SmallLisp
