import SmallLisp.Expr.Bindings
import SmallLisp.Expr.Entries

namespace SmallLisp

theorem mem_replaced {α : Type} {new e : α} {replaces : α → Prop} [DecidablePred replaces]
    (replaced : List α → List α) (hnil : replaced [] = [new])
    (hcons : ∀ x xs, replaced (x :: xs) = if replaces x then new :: xs else x :: replaced xs)
    {xs : List α} (h : e ∈ replaced xs) : e = new ∨ e ∈ xs := by
  induction xs with
  | nil =>
      rw [hnil] at h
      exact .inl (List.mem_singleton.mp h)
  | cons x xs ih =>
      rw [hcons] at h
      split at h
      · exact (List.mem_cons.mp h).imp_right (List.mem_cons_of_mem x)
      · rcases List.mem_cons.mp h with rfl | h
        · exact .inr List.mem_cons_self
        · exact (ih h).imp_right (List.mem_cons_of_mem x)

namespace Bindings

theorem mem_set {b : Bindings} {name : String} {value : Expr} {e : String × Expr}
    (h : e ∈ b.set name value) : e = (name, value) ∨ e ∈ b :=
  mem_replaced (set name value) rfl (fun _ _ => rfl) h

theorem forall_set {P : Expr → Prop} {b : Bindings} (hb : ∀ e ∈ b, P e.2) (name : String)
    {value : Expr} (hvalue : P value) : ∀ e ∈ b.set name value, P e.2 := by
  intro e he
  rcases mem_set he with rfl | he
  · exact hvalue
  · exact hb e he

theorem mem_of_get? {b : Bindings} {name : String} {value : Expr} (h : b.get? name = some value) :
    (name, value) ∈ b := by
  obtain ⟨pre, post, rfl, _⟩ := List.lookup_eq_some_iff.mp h
  simp

end Bindings

namespace Entries

theorem mem_set {entries : Entries} {key value : Expr} {e : Expr × Expr}
    (h : e ∈ entries.set key value) : e = (key, value) ∨ e ∈ entries :=
  mem_replaced (set key value) rfl (fun _ _ => rfl) h

theorem mem_setAll {entries : Entries} {values : List Expr} {e : Expr × Expr}
    (h : e ∈ entries.setAll values) : e ∈ entries ∨ e.1 ∈ values ∧ e.2 ∈ values := by
  fun_induction setAll entries values with
  | case1 entries key value rest ih =>
      rcases ih h with h | ⟨hkey, hvalue⟩
      · rcases mem_set h with rfl | h
        · simp
        · exact .inl h
      · simp [hkey, hvalue]
  | case2 => exact .inl h

theorem forall_setAll {P : Expr → Prop} {values : List Expr} (h : ∀ x ∈ values, P x) :
    ∀ e ∈ setAll [] values, P e.1 ∧ P e.2 := by
  intro e he
  rcases mem_setAll he with he | ⟨hkey, hvalue⟩
  · cases he
  · exact ⟨h _ hkey, h _ hvalue⟩

end Entries

end SmallLisp
