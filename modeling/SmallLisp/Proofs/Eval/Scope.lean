import SmallLisp.Proofs.Eval.Checkpoints
import SmallLisp.Proofs.Eval.Respected

/-!
What an evaluation sees of the state it starts from: the current bindings and the nesting, never the
checkpoints. What has been counted so far does not matter either. A call of a function that has captured
bindings does not even see the current ones.
-/
namespace SmallLisp

structure Stats.Kept (ρ : Stats → Stats → Prop) : Prop where
  expanded {s t : Stats} :
    ρ s t → ρ { s with expansions := s.expansions + 1 } { t with expansions := t.expansions + 1 }
  called {s t : Stats} : ρ s t → ρ { s with calls := s.calls + 1 } { t with calls := t.calls + 1 }
  deepened {s t : Stats} (depth : Nat) :
    ρ s t → ρ { s with depth := max s.depth depth } { t with depth := max t.depth depth }

theorem Stats.kept_eq : Kept Eq where
  expanded h := h ▸ rfl
  called h := h ▸ rfl
  deepened _ h := h ▸ rfl

theorem Stats.kept_any : Kept fun _ _ => True where
  expanded _ := trivial
  called _ := trivial
  deepened _ _ := trivial

/-- States that differ in their checkpoints only, and in what they have counted as a relation says. -/
structure Machine.Alike (ρ : Stats → Stats → Prop) (m n : Machine) : Prop where
  current : m.env.current = n.env.current
  depth : m.depth = n.depth
  stats : ρ m.stats n.stats

namespace EvalM

variable {α β : Type} {ρ : Stats → Stats → Prop} {S T : Machine → Machine → Prop}

inductive SameOutcome (S : Machine → Machine → Prop) :
    EStateM.Result Halt Machine α → EStateM.Result Halt Machine α → Prop
  | ok {a : α} {m n : Machine} : S m n → SameOutcome S (.ok a m) (.ok a n)
  | error {halt : Halt} {m n : Machine} : S m n → SameOutcome S (.error halt m) (.error halt n)

def Alike (ρ : Stats → Stats → Prop) (x : EvalM α) : Prop :=
  ∀ m n : Machine, m.Alike ρ n → SameOutcome (Machine.Alike ρ) (x m) (x n)

theorem alike_pure (a : α) : Alike ρ (pure a) := fun _ _ h => .ok h

theorem alike_throw (halt : Halt) : Alike ρ (throw halt : EvalM α) := fun _ _ h => .error h

theorem alike_modify {f : Machine → Machine}
    (hf : ∀ m n, m.Alike ρ n → (f m).Alike ρ (f n)) : Alike ρ (modify f) :=
  fun m n h => .ok (hf m n h)

theorem alike_look {g : Machine → β} {f : β → EvalM α}
    (hg : ∀ m n : Machine, m.Alike ρ n → g m = g n) (hf : ∀ b, Alike ρ (f b)) :
    Alike ρ (do f (g (← get))) := by
  intro m n h
  show SameOutcome _ (f (g m) m) (f (g n) n)
  rw [hg m n h]
  exact hf (g n) m n h

theorem alike_bind {x : EvalM α} {f : α → EvalM β} (hx : Alike ρ x)
    (hf : ∀ m a m', x m = .ok a m' → Alike ρ (f a)) : Alike ρ (x >>= f) := by
  intro m n h
  have hxmn := hx m n h
  have hfm := hf m
  simp only [bind, EStateM.bind]
  generalize x m = r at hxmn hfm ⊢
  generalize x n = s at hxmn ⊢
  cases hxmn with
  | ok h' => exact hfm _ _ rfl _ _ h'
  | error h' => exact .error h'

theorem sameOutcome_inCheckpoint {x : EvalM Expr} (hx : x.Keeps Machine.Balanced) {m n : Machine}
    (h : SameOutcome S (x { m with env := m.env.enter }) (x { n with env := n.env.enter }))
    (hST : ∀ m' n' : Machine, S m' n' → T { m' with env := m.env } { n' with env := n.env }) :
    SameOutcome T (inCheckpoint x m) (inCheckpoint x n) := by
  rw [inCheckpoint_eq (hx _).1.saved, inCheckpoint_eq (hx _).1.saved]
  generalize x { m with env := m.env.enter } = r at h ⊢
  generalize x { n with env := n.env.enter } = s at h ⊢
  cases h with
  | ok h => exact .ok (hST _ _ h)
  | error h => exact .error (hST _ _ h)

theorem alike_nested (hρ : Stats.Kept ρ) (opts : Options) (e : Expr) {x : EvalM Expr}
    (hx : Alike ρ x) : Alike ρ (nested opts e x) := by
  intro m n h
  simp only [nested, h.depth]
  by_cases hb : opts.maxDepth ≠ 0 ∧ opts.maxDepth ≤ n.depth
  · simp only [if_pos hb]
    exact .error h
  · simp only [if_neg hb]
    have hdeep : Machine.Alike ρ
        { m with stats := { m.stats with depth := max m.stats.depth (n.depth + 1) },
                 depth := n.depth + 1 }
        { n with stats := { n.stats with depth := max n.stats.depth (n.depth + 1) },
                 depth := n.depth + 1 } :=
      ⟨h.current, rfl, hρ.deepened (n.depth + 1) h.stats⟩
    have hxmn := hx _ _ hdeep
    generalize x _ = r at hxmn ⊢
    generalize x _ = s at hxmn ⊢
    cases hxmn with
    | ok h' => exact .ok ⟨h'.current, by simp only [h'.depth], h'.stats⟩
    | error h' => exact .error ⟨h'.current, by simp only [h'.depth], h'.stats⟩

end EvalM

namespace Call

open EvalM

variable {ρ : Stats → Stats → Prop} {ev : Evaluator}

theorem sameOutcome_run (hρ : Stats.Kept ρ) (hev : ∀ e, (ev e).Keeps Machine.Extends) {c : Call}
    (hbody : Alike ρ (ev c.body)) {m n : Machine}
    (hcurrent : (c.extend m.env.enter).current = (c.extend n.env.enter).current)
    (hdepth : m.depth = n.depth) (hstats : ρ m.stats n.stats) {T : Machine → Machine → Prop}
    (hT : ∀ m' n' : Machine, m'.Alike ρ n' → T { m' with env := m.env } { n' with env := n.env }) :
    SameOutcome T (c.run ev m) (c.run ev n) := by
  -- Both are a checkpoint around the body, in states that count the call.
  let counted (m : Machine) : Machine :=
    { m with stats := { m.stats with calls := m.stats.calls + 1 } }
  let body : EvalM Expr := do
    modify fun m => { m with env := c.extend m.env }
    ev c.body
  have hstart : Machine.Alike ρ { counted m with env := c.extend m.env.enter }
      { counted n with env := c.extend n.env.enter } := ⟨hcurrent, hdepth, hρ.called hstats⟩
  have houtcome : SameOutcome (Machine.Alike ρ) (body { counted m with env := m.env.enter })
      (body { counted n with env := n.env.enter }) :=
    hbody _ _ hstart
  have h : SameOutcome T (inCheckpoint body (counted m)) (inCheckpoint body (counted n)) :=
    sameOutcome_inCheckpoint (keeps_body hev c) houtcome hT
  exact h

theorem extend_current (c : Call) {env env' : Env} (h : env.current = env'.current) :
    (c.extend env).current = (c.extend env').current := by
  simp only [extend]
  cases c.env with
  | none => exact congrArg (Bindings.set c.param c.arg) h
  | some b => rfl

theorem alike_run (hρ : Stats.Kept ρ) (hev : ∀ e, (ev e).Keeps Machine.Extends) {c : Call}
    (hbody : Alike ρ (ev c.body)) : Alike ρ (c.run ev) := by
  intro m n h
  refine sameOutcome_run hρ hev hbody (c.extend_current h.current) h.depth h.stats ?_
  intro m' n' h'
  exact ⟨h.current, h'.depth, h'.stats⟩

theorem sameOutcome_run_captured (hρ : Stats.Kept ρ) (hev : ∀ e, (ev e).Keeps Machine.Extends)
    {c : Call} (hbody : Alike ρ (ev c.body)) {b : Bindings} (hc : c.env = some b) {m n : Machine}
    (hdepth : m.depth = n.depth) (hstats : ρ m.stats n.stats) :
    SameOutcome (fun m n => ρ m.stats n.stats) (c.run ev m) (c.run ev n) := by
  refine sameOutcome_run hρ hev hbody ?_ hdepth hstats fun m' n' h => h.stats
  simp only [extend, hc]
  rfl

theorem ofMacro?_current (e : Expr) {env env' : Env} (h : env.current = env'.current) :
    ofMacro? env e = ofMacro? env' e := by
  simp only [ofMacro?, Env.lookup?, h]

end Call

namespace Eval

open EvalM

variable {ρ : Stats → Stats → Prop}

theorem alike_reference (name : String) (prov : Provenance) : Alike ρ (reference name prov) := by
  rw [reference_eq]
  refine alike_look (g := fun m => m.env.lookup? name) (f := answer name prov) ?_ fun found => ?_
  · intro m n h
    simp only [Env.lookup?, h.current]
  · cases found with
    | some value => exact alike_pure _
    | none => exact alike_throw _

theorem alike_capture (opts : Options) (ev : Evaluator) (site body : Expr) (x : String)
    (xprov : Provenance) : Alike ρ (special opts ev site .lambda [.symbol x xprov, body]) :=
  alike_look (g := fun m => m.env.current) (f := fun b => pure (Expr.function x xprov body
    (if opts.captures then some b else none) site.prov)) (fun _ _ h => h.current)
    fun _ => alike_pure _

structure Steady (ρ : Stats → Stats → Prop) {α : Type} (P : α → Prop) (x : EvalM α) : Prop where
  value {m m' : Machine} {a : α} : x m = .ok a m' → P a
  keeps : x.Keeps Machine.Extends
  alike : Alike ρ x

section

variable {α β : Type} {P : α → Prop} {Q : β → Prop}

theorem steady_pure {a : α} (ha : P a) : Steady ρ P (pure a) where
  value h := by
    cases h
    exact ha
  keeps := keeps_pure a
  alike := alike_pure a

theorem steady_throw {halt : Halt} (hh : halt ≠ .underflow) : Steady ρ P (throw halt) where
  value h := nomatch h
  keeps := keeps_throw hh
  alike := alike_throw halt

theorem steady_bind {x : EvalM α} {f : α → EvalM β} (hx : Steady ρ P x)
    (hf : ∀ a, P a → Steady ρ Q (f a)) : Steady ρ Q (x >>= f) where
  value {m m'' b} h := by
    obtain ⟨a, m', hr, h⟩ := bind_eq_ok.mp h
    exact (hf a (hx.value hr)).value h
  keeps := keeps_bind_of_value hx.keeps fun _ a _ hr => (hf a (hx.value hr)).keeps
  alike := alike_bind hx.alike fun _ a _ hr => (hf a (hx.value hr)).alike

end

theorem respected_steady (hρ : Stats.Kept ρ) (opts : Options) :
    Respected opts opts (fun _ => True) (fun _ => True) (fun _ => True)
      fun P x _ => Steady ρ P x where
  toClosedValues := closedValues_true
  pure := steady_pure
  bind := steady_bind
  fail cause _ _ := steady_throw (by simp)
  outOfFuel := steady_throw (by simp)
  assign _ _ := ⟨fun _ => trivial, keeps_modify _ fun m => Machine.extends_assign m _ _,
    alike_modify fun m n h => ⟨by simp only [Env.assign, h.current], h.depth, h.stats⟩⟩
  reference _ := ⟨fun _ => trivial, reference_extends _ _, alike_reference _ _⟩
  capture ev _ x xprov _ _ := ⟨fun _ => trivial, keeps_bind keeps_get fun _ => keeps_pure _,
    alike_capture opts ev _ _ x xprov⟩
  macroCall {e} _ := ⟨fun _ _ _ => trivial, keeps_bind keeps_get fun _ => keeps_pure _,
    alike_look (fun m n h => Call.ofMacro?_current e h.current) fun _ => alike_pure _⟩
  called _ := trivial
  counted _ := ⟨fun _ => trivial, keeps_modify _ fun _ => ⟨⟨rfl, rfl⟩, fun _ h => h⟩,
    alike_modify fun m n h => ⟨h.current, h.depth, hρ.expanded h.stats⟩⟩
  call _ hev := ⟨fun _ => trivial, (Call.run_restores (fun e => (hev e trivial).keeps) _).toExtends,
    Call.alike_run hρ (fun e => (hev e trivial).keeps) (hev _ trivial).alike⟩
  nested _ h := ⟨fun _ => trivial, keeps_nested opts _ h.keeps, alike_nested hρ opts _ h.alike⟩

theorem steady_eval (hρ : Stats.Kept ρ) (opts : Options) (fuel : Nat) (e : Expr) :
    Steady ρ (fun _ => True) (eval opts fuel e) :=
  (respected_steady hρ opts).eval fuel trivial

/-- A call of a function with captured bindings has the same outcome and the same counts wherever it is
made; and the outcome of any evaluation, the bindings and the counts it leaves depend on the current
bindings, the counts and the nesting it starts from, not on the checkpoints. -/
theorem captured_calls_ignore_callers (opts : Options) (fuel : Nat) :
    (∀ (x : String) (body arg : Expr) (captured : Bindings) (stats : Stats) (depth : Nat)
      (env env' : Env), SameOutcome (fun m n => m.stats = n.stats)
        (Call.run (eval opts fuel) ⟨x, body, some captured, arg⟩ ⟨env, stats, depth⟩)
        (Call.run (eval opts fuel) ⟨x, body, some captured, arg⟩ ⟨env', stats, depth⟩)) ∧
      ∀ (e : Expr) (current : Bindings) (saved saved' : Stack Bindings) (stats : Stats) (depth : Nat),
        SameOutcome (Machine.Alike Eq) (eval opts fuel e ⟨⟨current, saved⟩, stats, depth⟩)
          (eval opts fuel e ⟨⟨current, saved'⟩, stats, depth⟩) := by
  have hsteady := steady_eval Stats.kept_eq opts fuel
  refine ⟨fun x body arg captured stats depth env env' => ?_, fun e current saved saved' stats depth => ?_⟩
  · exact Call.sameOutcome_run_captured Stats.kept_eq (fun e => (hsteady e).keeps)
      (hsteady body).alike rfl rfl rfl
  · exact (hsteady e).alike _ _ ⟨rfl, rfl, rfl⟩

end Eval

end SmallLisp
