import SmallLisp.Proofs.Eval.Agreement
import SmallLisp.Proofs.Eval.Fuel
import SmallLisp.Proofs.Eval.Untouched

/-!
Evaluation without macros ends where its nesting is bounded. Every evaluation of a part goes one level
deeper, and no level is entered behind the bound; on one level there are only the loops over operands. What
is left of the bound pays for the fuel.
-/
namespace SmallLisp

abbrev Expr.Macroless (e : Expr) : Prop := e.Tame (· ≠ .mkMacro)

abbrev Bindings.Macroless (b : Bindings) : Prop := b.Tame (· ≠ .mkMacro)

abbrev Call.Macroless (c : Call) : Prop := c.Tame (· ≠ .mkMacro)

namespace EvalM

variable {α β : Type} {n levels : Nat} {P : α → Prop} {Q : β → Prop}

/-- Where no more than some levels are left below the bound, the computation ends, from bindings without
macros; and with a value, if it gives one, it leaves such bindings again. -/
structure Terminates (n levels : Nat) (P : α → Prop) (x : EvalM α) : Prop where
  ends {m : Machine} : m.env.current.Macroless → n ≤ levels + m.depth → x.Ends m
  value {m m' : Machine} {a : α} : m.env.current.Macroless → n ≤ levels + m.depth → x m = .ok a m' →
    P a ∧ m'.env.current.Macroless ∧ m.Balanced m'

theorem terminates_pure {a : α} (ha : P a) : Terminates n levels P (pure a) where
  ends _ _ := ends_of_eq_ok rfl
  value hm _ h := by
    cases h
    exact ⟨ha, hm, rfl, rfl⟩

theorem terminates_fail (cause : EvalError.Cause) (subject : Expr) :
    Terminates n levels P (fail cause subject) where
  ends _ _ h := nomatch h
  value _ _ h := nomatch h

theorem terminates_get : Terminates n levels (fun m : Machine => m.env.current.Macroless) get where
  ends _ _ := ends_of_eq_ok rfl
  value hm _ h := by
    cases h
    exact ⟨hm, hm, rfl, rfl⟩

theorem terminates_modify {f : Machine → Machine} (hbalanced : ∀ m : Machine, m.Balanced (f m))
    (hf : ∀ m : Machine, m.env.current.Macroless → (f m).env.current.Macroless) :
    Terminates n levels (fun _ => True) (modify f) where
  ends _ _ := ends_of_eq_ok rfl
  value {m _ _} hm _ h := by
    cases h
    exact ⟨trivial, hf m hm, hbalanced m⟩

theorem terminates_bind {x : EvalM α} {f : α → EvalM β} (hx : Terminates n levels P x)
    (hf : ∀ a, P a → Terminates n levels Q (f a)) : Terminates n levels Q (x >>= f) where
  ends {m} hm hn := by
    have hends := hx.ends hm hn
    simp only [Ends, halt?, bind, EStateM.bind] at hends ⊢
    cases hr : x m with
    | error halt m' => simpa only [hr] using hends
    | ok a m' =>
        obtain ⟨ha, hm', hbalanced⟩ := hx.value hm hn hr
        exact (hf a ha).ends hm' (hbalanced.depth ▸ hn)
  value {m m'' b} hm hn h := by
    obtain ⟨a, m', hr, h⟩ := bind_eq_ok.mp h
    obtain ⟨ha, hm', hbalanced⟩ := hx.value hm hn hr
    obtain ⟨hb, hm'', hbalanced'⟩ := (hf a ha).value hm' (hbalanced.depth ▸ hn) h
    exact ⟨hb, hm'', hbalanced.trans hbalanced'⟩

variable {x : EvalM Expr} {R : Expr → Prop}

theorem terminates_inCheckpoint (hx : Terminates n levels R x) :
    Terminates n levels R (inCheckpoint x) where
  ends {m} hm hn := by
    have hends := hx.ends (m := { m with env := m.env.enter }) hm hn
    simp only [Ends, halt?, inCheckpoint] at hends ⊢
    generalize x _ = r at hends ⊢
    cases r with
    | ok a m' => cases h : m'.env.leave? <;> simp [h]
    | error halt m' => cases h : m'.env.leave? <;> simpa [h] using hends
  value {m m' a} hm hn h := by
    simp only [inCheckpoint] at h
    cases hr : x { m with env := m.env.enter } with
    | error halt m₁ => cases hl : m₁.env.leave? <;> simp [hr, hl] at h
    | ok b m₁ =>
        obtain ⟨hb, _, hbalanced⟩ := hx.value (m := { m with env := m.env.enter }) hm hn hr
        have hleave : m₁.env.leave? = some m.env := by
          rw [Env.leave?, hbalanced.saved]
          rfl
        simp only [hr, hleave] at h
        cases h
        exact ⟨hb, hm, rfl, hbalanced.depth⟩

theorem terminates_nested_of_no_level (captures : Bool) (hn : 0 < n) (e : Expr) (x : EvalM Expr) :
    Terminates n 0 R (nested ⟨captures, n⟩ e x) where
  ends {m} _ hreached := by
    have hb : n ≠ 0 ∧ n ≤ m.depth := by omega
    simp [Ends, halt?, nested, if_pos hb]
  value {m m' a} _ hreached h := by
    have hb : n ≠ 0 ∧ n ≤ m.depth := by omega
    exact absurd hb (nested_eq_ok.mp h).1

theorem terminates_nested (captures : Bool) (e : Expr) (hx : Terminates n levels R x) :
    Terminates n (levels + 1) R (nested ⟨captures, n⟩ e x) where
  ends {m} hm hn := by
    by_cases hb : n ≠ 0 ∧ n ≤ m.depth
    · simp [Ends, halt?, nested, if_pos hb]
    · have hends := hx.ends (m := deeper m) hm (by simp only [deeper]; omega)
      simp only [Ends, halt?, nested_of_not_reached captures hb] at hends ⊢
      generalize x _ = r at hends ⊢
      cases r with
      | ok a m' => simp
      | error halt m' => exact hends
  value {m m' a} hm hn h := by
    obtain ⟨_, m₁, hx₁, rfl⟩ := nested_eq_ok.mp h
    obtain ⟨ha, hm₁, hbalanced⟩ := hx.value (m := deeper m) hm (by simp only [deeper]; omega) hx₁
    exact ⟨ha, hm₁, hbalanced.saved, congrArg (· - 1) hbalanced.depth⟩

end EvalM

namespace Eval

open EvalM

variable {n levels : Nat} {opts : Options} {ev : Evaluator}

theorem terminates_run {c : Call} (hc : c.Macroless) {R : Expr → Prop}
    (hbody : Terminates n levels R (ev c.body)) : Terminates n levels R (c.run ev) := by
  refine terminates_bind (terminates_modify (fun _ => ⟨rfl, rfl⟩) fun _ hm => hm) fun _ _ => ?_
  have hextend : Terminates n levels (fun _ => True)
      (modify fun m => { m with env := c.extend m.env }) :=
    terminates_modify (fun m => ⟨c.saved_extend m.env, rfl⟩)
      fun m hm => hc.extend hm
  exact terminates_inCheckpoint (terminates_bind hextend fun _ _ => hbody)

theorem terminates_reference (name : String) (prov : Provenance) :
    Terminates n levels Expr.Macroless (reference name prov) := by
  refine terminates_bind terminates_get fun m hm => ?_
  cases hlookup : m.env.lookup? name with
  | none => exact terminates_fail _ _
  | some value => exact terminates_pure ((hm.get? hlookup).withProv _)

theorem terminates_capture (opts : Options) (ev : Evaluator) {site body : Expr} (x : String)
    (xprov : Provenance) (hbody : body.Macroless) :
    Terminates n levels Expr.Macroless (special opts ev site .lambda [.symbol x xprov, body]) := by
  exact terminates_bind terminates_get fun m hm =>
    terminates_pure (.function hbody (hm.captured opts.captures))

theorem terminates_expandWith (ev : Evaluator) (fuel : Nat) {e : Expr} (he : e.Macroless) :
    Terminates n levels Expr.Macroless (expandWith ev (fuel + 1) e) := by
  refine terminates_bind terminates_get fun m hm => ?_
  rw [Call.ofMacro?_of_tame he hm]
  exact terminates_pure he

theorem composed_terminates (hev : ∀ {e : Expr}, e.Macroless →
    Terminates n levels Expr.Macroless (ev e)) :
    Composed opts opts ev ev Expr.Macroless Call.Macroless fun P x _ => Terminates n levels P x where
  toClosedValues := closedValues_tame (not_not_intro rfl)
  pure := terminates_pure
  bind := terminates_bind
  fail cause _ _ := terminates_fail cause _
  assign _ hvalue := terminates_modify (fun _ => ⟨rfl, rfl⟩) fun _ hm => hm.set _ hvalue
  reference _ := terminates_reference _ _
  capture x xprov _ hbody := terminates_capture opts ev x xprov hbody
  eval := hev
  run hc := terminates_run hc (hev hc.body)

theorem terminates_eval (captures : Bool) (hn : 0 < n) (levels : Nat) {e : Expr} (he : e.Macroless) :
    Terminates n levels Expr.Macroless (eval ⟨captures, n⟩ (levels + 1) e) := by
  induction levels generalizing e with
  | zero => exact terminates_nested_of_no_level captures hn e _
  | succ levels ih =>
      apply terminates_nested captures
      exact terminates_bind (terminates_expandWith _ _ he) fun e' he' =>
        (composed_terminates ih).evalExpanded he'

/-- Without macros and with a bound on the nesting, every evaluation comes to one outcome, a value or an
error, with any fuel that exceeds the bound. -/
theorem bounded_evaluation_ends (captures : Bool) {n : Nat} (hn : 0 < n) {m : Machine} {e : Expr}
    (hm : m.env.current.Macroless) (he : e.Macroless) :
    ∃ r, (∀ fuel, n < fuel → eval ⟨captures, n⟩ fuel e m = r) ∧
      ((∃ value m', r = .ok value m') ∨ ∃ error m', r = .error (.error error) m') := by
  have hends : (eval ⟨captures, n⟩ (n + 1) e).Ends m :=
    (terminates_eval captures hn n he).ends hm (Nat.le_add_right n m.depth)
  have hunderflow := (eval_extends ⟨captures, n⟩ (n + 1) e m).2
  refine ⟨_, fun fuel hfuel => eval_of_le hfuel hends, ?_⟩
  simp only [Ends, halt?] at hends hunderflow
  cases hr : eval ⟨captures, n⟩ (n + 1) e m with
  | ok value m' => exact .inl ⟨value, m', rfl⟩
  | error halt m' =>
      simp only [hr] at hends hunderflow
      cases halt with
      | error error => exact .inr ⟨error, m', rfl⟩
      | underflow => exact absurd rfl hunderflow
      | outOfFuel => exact absurd rfl hends

theorem bounded_evaluation_ends_of_self_application :
    let twice : Expr := .list [.symbol "x" [], .symbol "x" []] []
    let self : Expr := .function "x" [] twice none []
    self.Macroless ∧ ∃ subject m', ∀ fuel, 2 < fuel →
      eval ⟨false, 2⟩ fuel (.list [self, self] []) (.ofEnv .empty) =
        .error (.error ⟨.depthExceeded, subject⟩) m' := by
  intro twice self
  have hself : self.Macroless := .function (.list (by simp [Expr.Tame.symbol])) (by simp)
  have hboth : (Expr.list [self, self] []).Macroless := .list (by simpa using hself)
  obtain ⟨r, hr, _⟩ := bounded_evaluation_ends (n := 2) false (by decide) (m := .ofEnv .empty)
    (by simp [Bindings.Tame, Machine.ofEnv, Env.empty]) hboth
  have hthree : eval ⟨false, 2⟩ 3 (.list [self, self] []) (.ofEnv .empty) =
      .error (.error ⟨.depthExceeded, some (.symbol "x" [])⟩) ⟨.empty, ⟨0, 1, 2⟩, 0⟩ := rfl
  exact ⟨hself, _, _, fun fuel hfuel => (hr fuel hfuel).trans ((hr 3 (by decide)).symm.trans hthree)⟩

end Eval

end SmallLisp
