import SmallLisp.Expr.Text
import SmallLisp.Proofs.Eval.Currying
import SmallLisp.Proofs.Expr.Data
import SmallLisp.Proofs.Interpreter.Streaming

namespace SmallLisp

namespace Expr

inductive Datum (numbers : Int64 → Prop) : Expr → Prop
  | int {n : Int64} {p : Provenance} : numbers n → Datum numbers (.int n p)
  | symbol {name : String} {p : Provenance} : (Lexeme.symbol name).Spellable →
      Datum numbers (.symbol name p)
  | list {items : List Expr} {p : Provenance} : (∀ x ∈ items, Datum numbers x) →
      Datum numbers (.list items p)

mutual

def unsigned : Expr → Expr
  | .int n p => if 0 ≤ n then .int n p else .symbol (toString n.toInt) p
  | .list items p => .list (unsignedItems items) p
  | e => e

def unsignedItems : List Expr → List Expr
  | [] => []
  | x :: xs => x.unsigned :: unsignedItems xs

end

theorem unsignedItems_eq_map (xs : List Expr) : unsignedItems xs = xs.map unsigned := by
  induction xs with
  | nil => rfl
  | cons x xs ih => simp [unsignedItems, ih]

theorem spellable_of_negative {n : Int64} (hn : ¬0 ≤ n) :
    (Lexeme.symbol (toString n.toInt)).Spellable := by
  have hneg : n.toInt < 0 := by
    simpa [Int64.le_iff_toInt_le] using hn
  obtain ⟨k, hk⟩ := Int.eq_negSucc_of_lt_zero hneg
  have htext : (toString n.toInt).toList = '-' :: Nat.toDigits 10 (k + 1) := by
    rw [hk]
    show ("-" ++ Nat.repr (k + 1)).toList = _
    rw [String.toList_append, Nat.toList_repr]
    rfl
  refine ⟨?_, fun c hc => ?_⟩
  · rw [htext]
    exact (by decide : isSymbolStart '-' = true)
  · rw [htext] at hc
    rcases List.mem_cons.mp hc with rfl | hc
    · decide
    · exact isSymbolChar_of_isDigit (Text.isDigit_of_mem_toDigits hc)

variable {numbers : Int64 → Prop}

theorem Datum.data {v : Expr} (hv : v.Datum numbers) : v.unsigned.Data := by
  induction hv with
  | @int n p _ =>
      rw [unsigned]
      split
      · next hn => exact .int hn
      · next hn => exact .symbol (spellable_of_negative hn)
  | symbol hname => exact .symbol hname
  | list _ ih =>
      rw [unsigned, unsignedItems_eq_map]
      exact .list (List.forall_mem_map.mpr ih)

theorem Datum.named_unsigned {v : Expr} (hv : v.Datum numbers) : v.unsigned.named = v.unsigned := by
  induction hv with
  | @int n p _ =>
      rw [unsigned]
      split <;> rfl
  | symbol _ => rfl
  | list _ ih =>
      simp only [unsigned, unsignedItems_eq_map, named, namedItems_eq_map, List.map_map,
        Function.comp_def, List.map_congr_left ih]

theorem Datum.text_form {v : Expr} (hv : v.Datum numbers) : v.unsigned.form.text = v.text := by
  induction hv with
  | @int n p _ =>
      rw [unsigned]
      split <;> rfl
  | symbol _ => rfl
  | list _ ih =>
      simp only [unsigned, unsignedItems_eq_map, form, forms_eq_map, Form.text, Form.texts_eq_map, text,
        texts_eq_map, List.map_map, Function.comp_def, List.map_congr_left ih]
      rfl

theorem Datum.unsigned_eq_self {v : Expr} (hv : v.Datum (0 ≤ ·)) : v.unsigned = v := by
  induction hv with
  | int hn => rw [unsigned, if_pos hn]
  | symbol _ => rfl
  | list _ ih => simp only [unsigned, unsignedItems_eq_map, List.map_congr_left ih, List.map_id']

theorem nonneg_of_equalLists {xs ws : List Expr}
    (h : ∀ x ∈ xs, ∀ w, x.equal w = true → x.unsigned.equal w = true → x.Datum (0 ≤ ·))
    (hxs : equalLists xs ws = true) (hunsigned : equalLists (xs.map unsigned) ws = true) :
    ∀ x ∈ xs, x.Datum (0 ≤ ·) := by
  induction xs generalizing ws with
  | nil => simp
  | cons x xs ih =>
      cases ws with
      | nil => simp [equalLists] at hxs
      | cons w ws =>
          simp only [List.map_cons, equalLists, Bool.and_eq_true] at hxs hunsigned
          obtain ⟨hx, hrest⟩ := List.forall_mem_cons.mp h
          exact List.forall_mem_cons.mpr
            ⟨hx w hxs.1 hunsigned.1, ih hrest hxs.2 hunsigned.2⟩

theorem Datum.nonneg_of_equal {v w : Expr} (hv : v.Datum numbers) (hvw : v.equal w = true)
    (hunsigned : v.unsigned.equal w = true) : v.Datum (0 ≤ ·) := by
  induction hv generalizing w with
  | @int n p _ =>
      by_cases hn : 0 ≤ n
      · exact .int hn
      · rw [unsigned, if_neg hn] at hunsigned
        cases w <;> simp [equal] at hvw hunsigned
  | symbol hname => exact .symbol hname
  | @list items p _ ih =>
      cases w with
      | list ws q =>
          rw [unsigned, unsignedItems_eq_map] at hunsigned
          simp only [equal] at hvw hunsigned
          exact .list (nonneg_of_equalLists (fun x hx w => ih x hx) hvw hunsigned)
      | _ => simp [equal] at hvw

theorem Datum.parse_quoted {v : Expr} (hv : v.Datum numbers) :
    ∃ site operand, parse ('\'' :: v.text.toList) = [.form (.marked .quote site operand)] ∧
      operand.bare = v.unsigned.form.bare := by
  let form : Form := .marked .quote .nowhere v.unsigned.form
  have hform : form.Spellable := by
    intro t ht
    rcases List.mem_cons.mp ht with rfl | ht
    · exact trivial
    · exact hv.data.spellable_form t ht
  have htext : form.text.toList = '\'' :: v.text.toList := by
    simp [form, Form.text, hv.text_form, Mark.char]
  have hparse : (parse form.text.toList).map Parser.Event.bare =
      [form].map fun f => .form f.bare := Parser.parse_joined (by simpa using hform) .single
  rw [htext] at hparse
  obtain ⟨event, hevents, hevent⟩ := List.map_eq_singleton_iff.mp hparse
  cases event with
  | form g =>
      have hg : g.bare = .marked .quote .nowhere v.unsigned.form.bare :=
        Parser.Event.form.inj hevent
      cases g with
      | marked mark site operand =>
          obtain ⟨rfl, hoperand⟩ : mark = .quote ∧ operand.bare = v.unsigned.form.bare := by
            simpa [Form.bare] using hg
          exact ⟨site, operand, hevents, hoperand⟩
      | _ => simp [Form.bare] at hg
  | _ => simp [Parser.Event.bare] at hevent

end Expr

theorem Eval.eval_quotation (options : Options) (hbound : options.maxDepth = 0) (fuel : Nat) (e : Expr)
    (p q : Provenance) (m : Machine) :
    ∃ m', eval options (fuel + 2) (.list [.special .quote p, e] q) m = .ok e m' := by
  obtain ⟨captures, bound⟩ := options
  obtain rfl : bound = 0 := hbound
  exact ⟨_, rfl⟩

namespace Interpreter

theorem runText_quotation {numbers : Int64 → Prop} (it : Interpreter) (hbound : it.options.maxDepth = 0)
    (fuel : Nat) {v : Expr} (hv : v.Datum numbers) :
    ∃ value, (it.runText (fuel + 2) ('\'' :: v.text.toList)).1 = [.ok value] ∧
      v.unsigned.equal value = true := by
  obtain ⟨site, operand, hparse, hoperand⟩ := hv.parse_quoted
  let file : Option FileRef := some ⟨it.opened, inputName⟩
  obtain ⟨value, hvalue, hequal⟩ := hv.data.read_of_bare file hoperand
  rw [hv.named_unsigned] at hequal
  obtain ⟨m', heval⟩ := Eval.eval_quotation it.options hbound fuel value (.written file site)
    (.written file (site.join operand.span)) it.machine
  have hread : (Form.marked .quote site operand).read file = .ok (.list
      [.special .quote (.written file site), value] (.written file (site.join operand.span))) := by
    rw [Form.read, hvalue]
    rfl
  refine ⟨value, ?_, hequal⟩
  simp only [runText_eq, hparse, runEvents, runEvent, hread, heval, file]

/-- A value made of numbers, names and lists is printed, quoted and run without an error, and the one result
is the value with names in the place of numbers below zero. So it is equal to the value where and only
where there is no such number. -/
theorem quoted_data_reads_back (it : Interpreter) (hbound : it.options.maxDepth = 0) (fuel : Nat)
    {v : Expr} (hv : v.Datum fun _ => True) :
    ∃ value, (it.runText (fuel + 2) ('\'' :: v.text.toList)).1 = [.ok value] ∧
      v.unsigned.equal value = true ∧ (v.equal value = true ↔ v.Datum (0 ≤ ·)) := by
  obtain ⟨value, hrun, hvalue⟩ := runText_quotation it hbound fuel hv
  refine ⟨value, hrun, hvalue, fun hequal => hv.nonneg_of_equal hequal hvalue, fun hnonneg => ?_⟩
  rwa [hnonneg.unsigned_eq_self] at hvalue

theorem quoted_data_reads_back_of_mixed_list :
    let it := new .default true
    let v : Expr := .list [.symbol "x-1" [], .list [] [], .list [.int 9223372036854775807 []] []] []
    ∃ value, (it.runText ample ('\'' :: v.text.toList)).1 = [.ok value] ∧ v.equal value = true := by
  intro it v
  have hv (numbers : Int64 → Prop) (hlargest : numbers 9223372036854775807) : v.Datum numbers := by
    refine .list ?_
    simp only [List.forall_mem_cons]
    refine ⟨.symbol (by decide), .list (by simp), .list ?_, by simp⟩
    simpa using .int hlargest
  obtain ⟨value, hrun, _, hequal⟩ :=
    quoted_data_reads_back it rfl (ample - 2) (hv _ trivial)
  exact ⟨value, hrun, hequal.mpr (hv _ (by decide))⟩

theorem negative_number_reads_as_name :
    let v : Expr := .int (-5) []
    v.text = "-5" ∧ ∃ value, ((new .default true).runText ample ('\'' :: v.text.toList)).1 = [.ok value] ∧
      v.equal value = false ∧ (Expr.symbol "-5" []).equal value = true := by
  intro v
  have hv : v.Datum fun _ => True := .int trivial
  obtain ⟨value, hrun, hvalue⟩ := runText_quotation (new .default true) rfl (ample - 2) hv
  have hname : v.unsigned = .symbol "-5" [] := by rfl
  refine ⟨by decide, value, hrun, ?_, hname ▸ hvalue⟩
  refine Bool.eq_false_iff.mpr fun hequal => ?_
  have hnonneg : (Expr.int (-5) []).Datum (0 ≤ ·) := hv.nonneg_of_equal hequal hvalue
  cases hnonneg with
  | int hnonneg => exact absurd hnonneg (by decide)

end Interpreter

end SmallLisp
