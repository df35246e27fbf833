import SmallLisp.Proofs.Lex.Pattern

/-!
Counting in words. A machine adds up what patterns take as words, and goes on behind so many characters
without asking whether there are so many. It never looks where there is no text, whatever the pattern, and
counts what the pattern takes.
-/
namespace SmallLisp

def behind? (cs : List Char) (n : UInt64) : Option (List Char) :=
  if n.toNat ≤ cs.length then some (cs.drop n.toNat) else none

theorem behind?_ofNat {cs : List Char} {n : Nat} (hn : n ≤ cs.length) (hcs : cs.length < UInt64.size) :
    behind? cs (.ofNat n) = some (cs.drop n) := by
  rw [behind?, UInt64.toNat_ofNat_of_lt' (by omega), if_pos hn]

theorem one_lt_size : 1 < UInt64.size := by decide

theorem ofNat_succ_ne_zero {n : Nat} (hn : n + 1 < UInt64.size) : UInt64.ofNat (n + 1) ≠ 0 := by
  rw [ne_eq, ← UInt64.toNat_inj, UInt64.toNat_ofNat_of_lt' hn]
  exact Nat.succ_ne_zero n

theorem max_ofNat {m n : Nat} (hm : m < UInt64.size) (hn : n < UInt64.size) :
    max (UInt64.ofNat m) (.ofNat n) = .ofNat (max m n) := by
  change (if UInt64.ofNat m ≤ .ofNat n then UInt64.ofNat n else .ofNat m) = _
  simp only [UInt64.ofNat_le_iff_le hm hn, Nat.max_def]
  split <;> rfl

theorem exists_drop_eq_cons {cs : List Char} {n : Nat} (h : n < cs.length) :
    ∃ c ds, cs.drop n = c :: ds ∧ n + (ds.length + 1) = cs.length := by
  refine ⟨cs[n], cs.drop (n + 1), List.drop_eq_getElem_cons h, ?_⟩
  rw [List.length_drop]
  omega

namespace Pattern

def spells? : List Char → List Char → Option Bool
  | [], _ => some true
  | _ :: _, [] => none
  | d :: ds, c :: cs => if d = c then spells? ds cs else some false

def repeatCount? (count? : List Char → Option UInt64) (cs : List Char) : Nat → UInt64 → Option UInt64
  | 0, _ => none
  | rounds + 1, index =>
      if index < .ofNat cs.length then do
        let n ← count? (← behind? cs index)
        if n = 0 then some index else repeatCount? count? cs rounds (index + n)
      else some index

mutual

def count? : Pattern → List Char → Option UInt64
  | .all ps, cs => allCount? ps cs 0
  | .any ps, cs => anyCount? ps cs
  | .seq ps, cs => seqCount? ps cs 0
  | .many p, cs => repeatCount? p.count? cs (cs.length + 1) 0
  | .literal ds, cs =>
      if ds.length ≤ cs.length then do
        some (if ← spells? ds cs then .ofNat ds.length else 0)
      else some 0
  | .within _ _, [] => some 0
  | .within lowest highest, c :: _ => some (if lowest ≤ c ∧ c ≤ highest then 1 else 0)
  | .satisfy _, [] => some 0
  | .satisfy test, c :: _ => some (if test c then 1 else 0)
  | .eof, [] => some 1
  | .eof, _ :: _ => some 0

def allCount? : List Pattern → List Char → UInt64 → Option UInt64
  | [], _, longest => some longest
  | p :: ps, cs, longest => do
      let n ← p.count? cs
      if n = 0 then some 0 else allCount? ps cs (max longest n)

def anyCount? : List Pattern → List Char → Option UInt64
  | [], _ => some 0
  | p :: ps, cs => do
      let n ← p.count? cs
      if n = 0 then anyCount? ps cs else some n

def seqCount? : List Pattern → List Char → UInt64 → Option UInt64
  | [], _, taken => some taken
  | p :: ps, cs, taken =>
      if taken = .ofNat cs.length then some 0
      else do
        let n ← p.count? (← behind? cs taken)
        if n = 0 then some 0 else seqCount? ps cs (taken + n)

end

mutual

theorem width_nil_le (p : Pattern) : p.width [] ≤ 1 := by
  match p with
  | .all ps => simpa [width] using allWidth_nil_le ps (Nat.zero_le 1)
  | .any ps => simpa [width] using anyWidth_nil_le ps
  | .seq [] => exact Nat.zero_le 1
  | .seq (_ :: _) => exact Nat.zero_le 1
  | .many p => exact Nat.zero_le 1
  | .literal [] => exact Nat.zero_le 1
  | .literal (_ :: _) => exact Nat.zero_le 1
  | .within lowest highest => exact Nat.zero_le 1
  | .satisfy test => exact Nat.zero_le 1
  | .eof => exact Nat.le_refl 1

theorem allWidth_nil_le (ps : List Pattern) {longest : Nat} (h : longest ≤ 1) :
    allWidth ps [] longest ≤ 1 := by
  match ps with
  | [] => exact h
  | p :: ps =>
      have hp := width_nil_le p
      simp only [allWidth]
      split
      · exact Nat.zero_le 1
      · exact allWidth_nil_le ps (by omega)

theorem anyWidth_nil_le (ps : List Pattern) : anyWidth ps [] ≤ 1 := by
  match ps with
  | [] => exact Nat.zero_le 1
  | p :: ps =>
      have hp := width_nil_le p
      simp only [anyWidth]
      split
      · exact anyWidth_nil_le ps
      · omega

end

theorem width_le_max (p : Pattern) (cs : List Char) : p.width cs ≤ max 1 cs.length := by
  cases cs with
  | nil => exact width_nil_le p
  | cons c cs =>
      have hp := width_le p c cs
      rw [List.length_cons]
      omega

theorem width_lt_size (p : Pattern) {cs : List Char} (hcs : cs.length < UInt64.size) :
    p.width cs < UInt64.size := by
  have hp := width_le_max p cs
  have hone := one_lt_size
  omega

theorem spells?_eq {ds cs : List Char} (h : ds.length ≤ cs.length) :
    spells? ds cs = some (ds.isPrefixOf cs) := by
  induction ds generalizing cs with
  | nil => rfl
  | cons d ds ih =>
      cases cs with
      | nil => simp at h
      | cons c cs =>
          have hrest := ih (Nat.le_of_succ_le_succ h)
          simp only [spells?, List.isPrefixOf, hrest]
          split
          · next heq => simp [heq]
          · next hne => simp [hne]

theorem repeatWidth_eq_add (width : List Char → Nat) {skip : Nat} {cs : List Char}
    (h : skip ≤ cs.length) : repeatWidth width skip cs = skip + repeatWidth width 0 (cs.drop skip) := by
  induction cs generalizing skip with
  | nil =>
      obtain rfl : skip = 0 := Nat.le_zero.mp h
      simp
  | cons c cs ih =>
      cases skip with
      | zero => simp
      | succ skip =>
          have hrest := ih (Nat.le_of_succ_le_succ h)
          simp only [repeatWidth, List.drop_succ_cons, hrest]
          omega

theorem repeatWidth_cons {width : List Char → Nat} {c : Char} {cs : List Char} {n : Nat}
    (hn : width (c :: cs) = n + 1) (hle : n ≤ cs.length) :
    repeatWidth width 0 (c :: cs) = n + 1 + repeatWidth width 0 (cs.drop n) := by
  simp only [repeatWidth, hn]
  rw [repeatWidth_eq_add width hle]
  omega

theorem repeatCount?_eq {count? : List Char → Option UInt64} {width : List Char → Nat}
    (hcount : ∀ ds, ds.length < UInt64.size → count? ds = some (.ofNat (width ds)))
    (hle : ∀ x xs, width (x :: xs) ≤ xs.length + 1) {cs : List Char} (hcs : cs.length < UInt64.size)
    {rounds index : Nat} (hindex : index ≤ cs.length) (hrounds : cs.length - index < rounds) :
    repeatCount? count? cs rounds (.ofNat index) =
      some (.ofNat (index + repeatWidth width 0 (cs.drop index))) := by
  induction rounds generalizing index with
  | zero => omega
  | succ rounds ih =>
      simp only [repeatCount?, UInt64.ofNat_lt_iff_lt (Nat.lt_of_le_of_lt hindex hcs) hcs]
      rcases Nat.lt_or_eq_of_le hindex with hlt | rfl
      · obtain ⟨c, ds, hdrop, hlength⟩ := exists_drop_eq_cons hlt
        have hwidth := hle c ds
        have hds : (c :: ds).length < UInt64.size := by
          rw [List.length_cons]
          omega
        rw [if_pos hlt, behind?_ofNat hindex hcs, hdrop]
        simp only [Option.bind_eq_bind, Option.bind_some, hcount (c :: ds) hds]
        cases hn : width (c :: ds) with
        | zero => simp [repeatWidth, hn]
        | succ n =>
            have hnext : cs.drop (index + (n + 1)) = ds.drop n := by
              rw [← List.drop_drop, hdrop, List.drop_succ_cons]
            rw [if_neg (ofNat_succ_ne_zero (by omega)), ← UInt64.ofNat_add,
              ih (by omega) (by omega), hnext, repeatWidth_cons hn (by omega), Nat.add_assoc]
      · simp [repeatWidth]

mutual

theorem count?_eq (p : Pattern) {cs : List Char} (hcs : cs.length < UInt64.size) :
    p.count? cs = some (.ofNat (p.width cs)) := by
  match p with
  | .all ps =>
      simp only [count?, width]
      exact allCount?_eq ps hcs (Nat.lt_trans Nat.zero_lt_one one_lt_size)
  | .any ps =>
      simp only [count?, width]
      exact anyCount?_eq ps hcs
  | .seq ps =>
      simp only [count?, width]
      exact seqCount?_eq ps hcs (Nat.zero_le _)
  | .many p =>
      have hrepeat := repeatCount?_eq (fun _ => count?_eq p) (width_le p) hcs (Nat.zero_le _)
        (Nat.lt_succ_self cs.length)
      rw [Nat.zero_add] at hrepeat
      simp only [count?, width]
      exact hrepeat
  | .literal ds =>
      simp only [count?, width]
      split
      · next hle =>
          rw [spells?_eq hle]
          cases ds.isPrefixOf cs <;> rfl
      · next hgt =>
          have hfalse : ds.isPrefixOf cs = false := by
            rw [Bool.eq_false_iff, ne_eq, List.isPrefixOf_iff_prefix]
            exact fun h => hgt h.length_le
          simp [hfalse]
  | .within lowest highest =>
      cases cs with
      | nil => rfl
      | cons c cs =>
          simp only [count?, width]
          split <;> rfl
  | .satisfy test =>
      cases cs with
      | nil => rfl
      | cons c cs =>
          simp only [count?, width]
          split <;> rfl
  | .eof => cases cs <;> rfl

theorem allCount?_eq (ps : List Pattern) {cs : List Char} (hcs : cs.length < UInt64.size)
    {longest : Nat} (hlongest : longest < UInt64.size) :
    allCount? ps cs (.ofNat longest) = some (.ofNat (allWidth ps cs longest)) := by
  match ps with
  | [] => rfl
  | p :: ps =>
      have hp := width_lt_size p hcs
      simp only [allCount?, count?_eq p hcs, Option.bind_eq_bind, Option.bind_some, allWidth]
      cases hn : p.width cs with
      | zero => rfl
      | succ n =>
          rw [hn] at hp
          rw [if_neg (ofNat_succ_ne_zero hp), max_ofNat hlongest hp]
          exact allCount?_eq ps hcs (by omega)

theorem anyCount?_eq (ps : List Pattern) {cs : List Char} (hcs : cs.length < UInt64.size) :
    anyCount? ps cs = some (.ofNat (anyWidth ps cs)) := by
  match ps with
  | [] => rfl
  | p :: ps =>
      have hp := width_lt_size p hcs
      simp only [anyCount?, count?_eq p hcs, Option.bind_eq_bind, Option.bind_some, anyWidth]
      cases hn : p.width cs with
      | zero => exact anyCount?_eq ps hcs
      | succ n =>
          rw [hn] at hp
          rw [if_neg (ofNat_succ_ne_zero hp)]

theorem seqCount?_eq (ps : List Pattern) {cs : List Char} (hcs : cs.length < UInt64.size) {taken : Nat}
    (htaken : taken ≤ cs.length) :
    seqCount? ps cs (.ofNat taken) = some (.ofNat (seqWidth ps (cs.drop taken) taken)) := by
  match ps with
  | [] => simp [seqCount?, seqWidth]
  | p :: ps =>
      rcases Nat.lt_or_eq_of_le htaken with hlt | rfl
      · obtain ⟨c, ds, hdrop, hlength⟩ := exists_drop_eq_cons hlt
        have hp := width_le p c ds
        have hds : (c :: ds).length < UInt64.size := by
          rw [List.length_cons]
          omega
        have hne : UInt64.ofNat taken ≠ .ofNat cs.length := by
          rw [ne_eq, ← UInt64.toNat_inj, UInt64.toNat_ofNat_of_lt' (by omega),
            UInt64.toNat_ofNat_of_lt' hcs]
          omega
        simp only [seqCount?, if_neg hne, behind?_ofNat htaken hcs, Option.bind_eq_bind,
          Option.bind_some, hdrop, seqWidth, count?_eq p hds]
        cases hn : p.width (c :: ds) with
        | zero => rfl
        | succ n =>
            have hnext : (c :: ds).drop (n + 1) = cs.drop (taken + (n + 1)) := by
              rw [← hdrop, List.drop_drop]
            simp only [if_neg (ofNat_succ_ne_zero (show n + 1 < UInt64.size by omega)),
              ← UInt64.ofNat_add, hnext]
            exact seqCount?_eq ps hcs (by omega)
      · simp [seqCount?, seqWidth]

end

end Pattern

end SmallLisp
