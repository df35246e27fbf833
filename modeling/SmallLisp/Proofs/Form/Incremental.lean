import SmallLisp.Proofs.Form.Recovery
import SmallLisp.Proofs.Token.Tiling

namespace SmallLisp

namespace Scanner

theorem Scans.length_le {p : Position} {cs : List Char} {found : List Scanned}
    (h : Scans p cs found) : found.length ≤ cs.length := by
  induction h with
  | nil => exact Nat.le_refl 0
  | blank _ _ ih => exact Nat.le_succ_of_le ih
  | @piece _ c cs _ n _ _ hm _ ih =>
      obtain ⟨hpos, hn⟩ := width_le_of_firstMatch? hm
      simp only [List.length_drop, List.length_cons] at ih hn ⊢
      omega
  | stray _ _ _ ih => exact Nat.succ_le_succ ih

end Scanner

namespace Parser

open Scanner (Scans)

variable {opened : Stack Partial}

theorem length_run_le (opened : Stack Partial) (items : List Item) :
    (run opened items).length ≤ items.length + 1 := by
  induction items generalizing opened with
  | nil => cases opened <;> simp [run, finish]
  | cons item items ih =>
      have hrest := ih (feed opened item).2
      have hfirst : (feed opened item).1.toList.length ≤ 1 := Option.length_toList_le
      simp only [run, List.length_append, List.length_cons]
      omega

theorem length_parse_le (text : List Char) : (parse text).length ≤ text.length + 1 := by
  have hscan := (Scanner.scan_scans text).length_le
  have hrun := length_run_le .empty ((scan text).map .ofScanned)
  rw [List.length_map] at hrun
  exact Nat.le_trans hrun (Nat.succ_le_succ hscan)

inductive Pending : Parser → List Event → Prop
  | ended (pos : Position) (finished : Bool) : Pending ⟨⟨[], pos, finished⟩, .empty⟩ []
  | scanning {pos : Position} {cs : List Char} {found : List Scanned} :
      Scans pos cs found → (opened : Stack Partial) →
      Pending ⟨⟨cs, pos, false⟩, opened⟩ (run opened (found.map .ofScanned))

theorem pending_ofText (text : List Char) : Pending (ofText text) (parse text) :=
  .scanning (Scanner.scan_scans text) .empty

theorem pending_nextWithin {cs : List Char} {pos : Position} {found : List Scanned}
    (h : Scans pos cs found) {fuel : Nat} (hfuel : cs.length < fuel) (opened : Stack Partial) :
    let asked := nextWithin fuel ⟨⟨cs, pos, false⟩, opened⟩
    asked.1 = (run opened (found.map .ofScanned)).head? ∧
      Pending asked.2 (run opened (found.map .ofScanned)).tail := by
  intro asked
  induction fuel generalizing cs pos found opened with
  | zero => omega
  | succ fuel ih =>
      rcases h.next with ⟨rfl, pos', finished, hnext⟩ | ⟨i, rest, ds, pos', rfl, hnext, hlt, hrest⟩
      · have hasked : asked = ((finish opened).head?, ⟨⟨[], pos', finished⟩, .empty⟩) := by
          simp only [asked, nextWithin, hnext]
        have htail : (finish opened).tail = [] := by cases opened <;> rfl
        rw [hasked]
        exact ⟨rfl, htail ▸ .ended pos' finished⟩
      · cases hfeed : feed opened (.ofScanned i) with
        | mk event opened' =>
            cases event with
            | none =>
                have hasked : asked = nextWithin fuel ⟨⟨ds, pos', false⟩, opened'⟩ := by
                  simp only [asked, nextWithin, hnext, hfeed]
                simp only [List.map_cons, run, hfeed, hasked]
                exact ih hrest (by omega) opened'
            | some event =>
                have hasked : asked = (some event, ⟨⟨ds, pos', false⟩, opened'⟩) := by
                  simp only [asked, nextWithin, hnext, hfeed]
                simp only [List.map_cons, run, hfeed, hasked]
                exact ⟨rfl, .scanning hrest opened'⟩

theorem Pending.next {p : Parser} {events : List Event} (h : p.Pending events) :
    p.next.1 = events.head? ∧ p.next.2.Pending events.tail := by
  cases h with
  | ended pos finished =>
      obtain ⟨finished', hnext⟩ := Scanner.next_ended pos finished
      have hp : Parser.next ⟨⟨[], pos, finished⟩, .empty⟩ =
          (none, ⟨⟨[], pos, finished'⟩, .empty⟩) := by
        simp only [Parser.next, nextWithin, hnext]
        rfl
      rw [hp]
      exact ⟨rfl, .ended pos finished'⟩
  | scanning hscans opened => exact pending_nextWithin hscans (Nat.lt_succ_self _) opened

theorem fault_not_mem_run (opened : Stack Partial) (found : List Scanned) (message : String) :
    .fault message ∉ run opened (found.map .ofScanned) := by
  intro hmem
  induction found generalizing opened with
  | nil => cases opened <;> simp [run, finish] at hmem
  | cons i found ih =>
      rcases List.mem_append.mp hmem with hfirst | hrest
      · cases i with
        | error e => simp [Item.ofScanned] at hfirst
        | ok t => cases accept_fromToken (Option.mem_toList.mp hfirst)
      · exact ih _ hrest

theorem fault_not_mem_parse (text : List Char) (message : String) : .fault message ∉ parse text :=
  fault_not_mem_run .empty (scan text) message

end Parser

end SmallLisp
