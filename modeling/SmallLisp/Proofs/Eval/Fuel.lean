import SmallLisp.Proofs.Eval.DepthBound
import SmallLisp.Proofs.Eval.Scope

/-!
A run that ends within its fuel has the same outcome with more of it. So an expression has one outcome
from a state, if it has any, whatever the fuel; and the outcome does not depend on what an evaluation does
not go by, which is the nesting where no bound is set on it.
-/
namespace SmallLisp

structure Machine.Congruent (opts : Options) (S : Machine → Machine → Prop) : Prop where
  env {m n : Machine} : S m n → m.env = n.env
  place {m n : Machine} (env : Env) : S m n → S { m with env := env } { n with env := env }
  expanded {m n : Machine} : S m n →
    S { m with stats := { m.stats with expansions := m.stats.expansions + 1 } }
      { n with stats := { n.stats with expansions := n.stats.expansions + 1 } }
  called {m n : Machine} : S m n →
    S { m with stats := { m.stats with calls := m.stats.calls + 1 } }
      { n with stats := { n.stats with calls := n.stats.calls + 1 } }
  reached {m n : Machine} : S m n → opts.maxDepth ≠ 0 → m.depth = n.depth
  deeper {m n : Machine} : S m n → S (EvalM.deeper m) (EvalM.deeper n)
  back {m n : Machine} : S m n → S { m with depth := m.depth - 1 } { n with depth := n.depth - 1 }

theorem Machine.congruent_eq (opts : Options) : Congruent opts Eq where
  env h := h ▸ rfl
  place _ h := h ▸ rfl
  expanded h := h ▸ rfl
  called h := h ▸ rfl
  reached h _ := h ▸ rfl
  deeper h := h ▸ rfl
  back h := h ▸ rfl

structure Machine.AtAnyDepth (m n : Machine) : Prop where
  env : m.env = n.env
  calls : m.stats.calls = n.stats.calls
  expansions : m.stats.expansions = n.stats.expansions

namespace Machine.AtAnyDepth

theorem symm {m n : Machine} (h : m.AtAnyDepth n) : n.AtAnyDepth m :=
  ⟨h.env.symm, h.calls.symm, h.expansions.symm⟩

theorem trans {m n o : Machine} (h : m.AtAnyDepth n) (h' : n.AtAnyDepth o) : m.AtAnyDepth o :=
  ⟨h.env.trans h'.env, h.calls.trans h'.calls, h.expansions.trans h'.expansions⟩

theorem congruent (captures : Bool) : Congruent ⟨captures, 0⟩ AtAnyDepth where
  env h := h.env
  place _ h := ⟨rfl, h.calls, h.expansions⟩
  expanded h := ⟨h.env, h.calls, congrArg (· + 1) h.expansions⟩
  called h := ⟨h.env, congrArg (· + 1) h.calls, h.expansions⟩
  reached _ hbound := absurd rfl hbound
  deeper h := ⟨h.env, h.calls, h.expansions⟩
  back h := ⟨h.env, h.calls, h.expansions⟩

end Machine.AtAnyDepth

namespace EvalM

variable {α β : Type} {S : Machine → Machine → Prop} {P : α → Prop} {Q : β → Prop}

def Ends (x : EvalM α) (m : Machine) : Prop := x.halt? m ≠ some .outOfFuel

/-- Where the first computation ends, the second one has the same outcome, from all related states. -/
structure Extended (S : Machine → Machine → Prop) (P : α → Prop) (x y : EvalM α) : Prop where
  value {m m' : Machine} {a : α} : x m = .ok a m' → P a
  outcome {m n : Machine} : S m n → x.Ends m → SameOutcome S (x m) (y n)

theorem ends_of_eq_ok {x : EvalM α} {m m' : Machine} {a : α} (h : x m = .ok a m') : x.Ends m := by
  simp [Ends, halt?, h]

theorem SameOutcome.eq_ok {a : α} {m : Machine} {r : EStateM.Result Halt Machine α}
    (h : SameOutcome S (.ok a m) r) : ∃ n, r = .ok a n ∧ S m n := by
  cases h with
  | ok h => exact ⟨_, rfl, h⟩

theorem Extended.eq_ok {x y : EvalM α} (h : Extended S P x y) {m n m' : Machine} {a : α}
    (hmn : S m n) (hx : x m = .ok a m') : ∃ n', y n = .ok a n' ∧ S m' n' :=
  (hx ▸ h.outcome hmn (ends_of_eq_ok hx)).eq_ok

theorem extended_pure {a : α} (ha : P a) : Extended S P (pure a) (pure a) where
  value h := by
    cases h
    exact ha
  outcome h _ := .ok h

theorem extended_throw (halt : Halt) : Extended S P (throw halt) (throw halt) where
  value h := nomatch h
  outcome h _ := .error h

theorem extended_outOfFuel (y : EvalM α) : Extended S P (throw .outOfFuel) y where
  value h := nomatch h
  outcome _ hends := absurd rfl hends

theorem extended_modify {f : Machine → Machine} (hf : ∀ m n, S m n → S (f m) (f n)) :
    Extended S (fun _ => True) (modify f) (modify f) where
  value _ := trivial
  outcome h _ := .ok (hf _ _ h)

theorem extended_look {g : Env → β} {f : β → EvalM α} {opts : Options} (hS : Machine.Congruent opts S)
    (hf : ∀ b, Extended S P (f b) (f b)) :
    Extended S P (do f (g (← get).env)) (do f (g (← get).env)) where
  value {m m' a} h := (hf (g m.env)).value h
  outcome {m n} h hends := by
    show SameOutcome S (f (g m.env) m) (f (g n.env) n)
    rw [← hS.env h]
    exact (hf (g m.env)).outcome h hends

theorem extended_bind {x y : EvalM α} {f k : α → EvalM β} (hxy : Extended S P x y)
    (hfk : ∀ a, P a → Extended S Q (f a) (k a)) : Extended S Q (x >>= f) (y >>= k) where
  value {m m'' b} h := by
    obtain ⟨a, m', hr, h⟩ := bind_eq_ok.mp h
    exact (hfk a (hxy.value hr)).value h
  outcome {m n} h hends := by
    have hx := hxy.outcome h
    simp only [Ends, halt?, bind, EStateM.bind] at hx hends ⊢
    cases hr : x m with
    | error halt m' =>
        simp only [hr] at hx hends ⊢
        have hy := hx hends
        generalize y n = s at hy ⊢
        cases hy with
        | error h' => exact .error h'
    | ok a m' =>
        simp only [hr] at hx hends ⊢
        have hy := hx (by simp)
        generalize y n = s at hy ⊢
        cases hy with
        | ok h' => exact (hfk a (hxy.value hr)).outcome h' hends

variable {opts : Options} {x y : EvalM Expr} {R : Expr → Prop}

theorem extended_inCheckpoint (hS : Machine.Congruent opts S)
    (hxy : Extended S (fun _ => True) x y) :
    Extended S (fun _ => True) (inCheckpoint x) (inCheckpoint y) where
  value _ := trivial
  outcome {m n} h hends := by
    have henter : S { m with env := m.env.enter } { n with env := n.env.enter } := by
      rw [← hS.env h]
      exact hS.place _ h
    have hx := hxy.outcome henter
    simp only [Ends, halt?, inCheckpoint] at hx hends ⊢
    generalize x _ = r at hx hends ⊢
    generalize y _ = s at hx ⊢
    cases r with
    | ok a m' =>
        cases hx (by simp) with
        | @ok _ _ n' h' =>
            simp only [hS.env h']
            cases n'.env.leave? with
            | none => exact .error h'
            | some env => exact .ok (hS.place env h')
    | error halt m' =>
        have hhalt : some halt ≠ some .outOfFuel := by
          intro hout
          apply hends
          cases hl : m'.env.leave? <;> simpa [hl] using hout
        cases hx hhalt with
        | @error _ _ n' h' =>
            simp only [hS.env h']
            cases n'.env.leave? with
            | none => exact .error h'
            | some env => exact .error (hS.place env h')

theorem extended_nested (hS : Machine.Congruent opts S) (e : Expr)
    (hxy : Extended S (fun _ => True) x y) :
    Extended S (fun _ => True) (nested opts e x) (nested opts e y) where
  value _ := trivial
  outcome {m n} h hends := by
    by_cases hb : opts.maxDepth ≠ 0 ∧ opts.maxDepth ≤ m.depth
    · have hb' : opts.maxDepth ≠ 0 ∧ opts.maxDepth ≤ n.depth := ⟨hb.1, hS.reached h hb.1 ▸ hb.2⟩
      rw [nested, nested, if_pos hb, if_pos hb']
      exact .error h
    · have hb' : ¬(opts.maxDepth ≠ 0 ∧ opts.maxDepth ≤ n.depth) :=
        fun hn => hb ⟨hn.1, (hS.reached h hn.1).symm ▸ hn.2⟩
      have hx := hxy.outcome (hS.deeper h)
      simp only [Ends, halt?, nested_of_not_reached opts.captures hb,
        nested_of_not_reached opts.captures hb'] at hx hends ⊢
      generalize x _ = r at hx hends ⊢
      generalize y _ = s at hx ⊢
      cases r with
      | ok a m' =>
          cases hx (by simp) with
          | ok h' => exact .ok (hS.back h')
      | error halt m' =>
          cases hx hends with
          | error h' => exact .error (hS.back h')

end EvalM

namespace Eval

open EvalM

variable {S : Machine → Machine → Prop} {opts : Options}

theorem extended_run (hS : Machine.Congruent opts S) {ev ev' : Evaluator} (c : Call)
    (h : Extended S (fun _ => True) (ev c.body) (ev' c.body)) :
    Extended S (fun _ => True) (c.run ev) (c.run ev') := by
  refine extended_bind (extended_modify fun _ _ => hS.called) fun _ _ => ?_
  refine extended_inCheckpoint hS (extended_bind (extended_modify fun m n hmn => ?_) fun _ _ => h)
  rw [← hS.env hmn]
  exact hS.place _ hmn

theorem extended_reference (hS : Machine.Congruent opts S) (name : String) (prov : Provenance) :
    Extended S (fun _ => True) (reference name prov) (reference name prov) := by
  rw [reference_eq]
  refine extended_look (g := fun env => env.lookup? name) (f := answer name prov) hS fun found => ?_
  cases found with
  | some value => exact extended_pure trivial
  | none => exact extended_throw _

theorem respected_extended (hS : Machine.Congruent opts S) :
    Respected opts opts (fun _ => True) (fun _ => True) (fun _ => True) (Extended S) where
  toClosedValues := closedValues_true
  pure := extended_pure
  bind := extended_bind
  fail _ _ _ := extended_throw _
  outOfFuel := extended_throw _
  assign _ _ := extended_modify fun _ _ h => hS.env h ▸ hS.place _ h
  reference _ := extended_reference hS _ _
  capture _ _ x xprov _ _ :=
    extended_look (g := Env.current) (f := fun b => pure (Expr.function x xprov _
      (if opts.captures then some b else none) _)) hS fun _ => extended_pure trivial
  macroCall {e} _ := extended_look (g := fun env => Call.ofMacro? env e) hS
    fun _ => extended_pure fun _ _ => trivial
  called _ := trivial
  counted _ := extended_modify fun _ _ => hS.expanded
  call _ hev := extended_run hS _ (hev _ trivial)
  nested _ h := extended_nested hS _ h

theorem extended_expandWith (hS : Machine.Congruent opts S) {ev ev' : Evaluator}
    (hev : ∀ e, Extended S (fun _ => True) (ev e) (ev' e)) {fuel fuel' : Nat} (hle : fuel ≤ fuel')
    (e : Expr) : Extended S (fun _ => True) (expandWith ev fuel e) (expandWith ev' fuel' e) := by
  have hr := respected_extended hS
  induction fuel generalizing e fuel' with
  | zero => exact extended_outOfFuel _
  | succ fuel ih =>
      obtain ⟨fuel', rfl⟩ := Nat.exists_eq_succ_of_ne_zero (Nat.ne_zero_of_lt hle)
      rw [expandWith_succ, expandWith_succ]
      refine hr.bind (hr.macroCall trivial) fun c _ => ?_
      cases c with
      | none => exact hr.pure trivial
      | some c =>
          have hcall : Extended S (fun _ => True) (callMacro ev c) (callMacro ev' c) :=
            hr.bind (hr.counted (c := c) trivial) fun _ _ => hr.call trivial fun e _ => hev e
          refine hr.bind hcall fun e' _ => ?_
          split
          · exact hr.pure trivial
          · exact ih (Nat.le_of_succ_le_succ hle) e'

theorem extended_eval (hS : Machine.Congruent opts S) {fuel fuel' : Nat} (hle : fuel ≤ fuel')
    (e : Expr) : Extended S (fun _ => True) (eval opts fuel e) (eval opts fuel' e) := by
  have hr := respected_extended hS
  induction fuel generalizing e fuel' with
  | zero => exact extended_outOfFuel _
  | succ fuel ih =>
      obtain ⟨fuel', rfl⟩ := Nat.exists_eq_succ_of_ne_zero (Nat.ne_zero_of_lt hle)
      have hev := ih (Nat.le_of_succ_le_succ hle)
      apply hr.nested trivial
      exact hr.bind (extended_expandWith hS hev hle e) fun e' _ =>
        (hr.composed fun e _ => hev e).evalExpanded trivial

def Returns (opts : Options) (e : Expr) (m : Machine) (r : EStateM.Result Halt Machine Expr) : Prop :=
  ∃ fuel, (eval opts fuel e).Ends m ∧ eval opts fuel e m = r

theorem returns_of_eq_ok (fuel : Nat) {e value : Expr} {m m' : Machine}
    (h : eval opts fuel e m = .ok value m') : Returns opts e m (.ok value m') :=
  ⟨fuel, ends_of_eq_ok h, h⟩

theorem eval_of_le {fuel fuel' : Nat} (hle : fuel ≤ fuel') {e : Expr} {m : Machine}
    (hends : (eval opts fuel e).Ends m) : eval opts fuel' e m = eval opts fuel e m := by
  have h := (extended_eval (Machine.congruent_eq opts) hle e).outcome rfl hends
  generalize eval opts fuel e m = r at h ⊢
  generalize eval opts fuel' e m = s at h ⊢
  cases h with
  | ok h => rw [h]
  | error h => rw [h]

theorem Ends.of_le {fuel fuel' : Nat} (hle : fuel ≤ fuel') {e : Expr} {m : Machine}
    (hends : (eval opts fuel e).Ends m) : (eval opts fuel' e).Ends m := by
  simpa only [Ends, halt?, eval_of_le hle hends] using hends

theorem Returns.unique {e : Expr} {m : Machine} {r s : EStateM.Result Halt Machine Expr}
    (hr : Returns opts e m r) (hs : Returns opts e m s) : r = s := by
  obtain ⟨fuel, hends, rfl⟩ := hr
  obtain ⟨fuel', hends', rfl⟩ := hs
  rcases Nat.le_total fuel fuel' with hle | hle
  · exact (eval_of_le hle hends).symm
  · exact eval_of_le hle hends'

end Eval

end SmallLisp
