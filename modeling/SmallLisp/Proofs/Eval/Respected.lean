import SmallLisp.Proofs.Eval.Provenance

/-!
What every step of an evaluation respects, the whole evaluation respects. A property of expressions
and a relation between computations are given, the relation with what the common values of two
related computations satisfy; if they are closed under the steps, then runs of the evaluator on an
expression with the property are related.
-/
namespace SmallLisp

theorem EvalM.bind_eq_ok {α β : Type} {x : EvalM α} {f : α → EvalM β} {m m' : Machine} {b : β} :
    (x >>= f) m = .ok b m' ↔ ∃ a m₁, x m = .ok a m₁ ∧ f a m₁ = .ok b m' := by
  simp only [bind, EStateM.bind]
  cases x m <;> simp

namespace Eval

theorem expandWith_succ (ev : Evaluator) (fuel : Nat) (e : Expr) :
    expandWith ev (fuel + 1) e = ((do return Call.ofMacro? (← get).env e) >>= fun c =>
      match c with
      | none => pure e
      | some c => callMacro ev c >>= fun e' =>
          if e.equal e' then pure e' else expandWith ev fuel e') :=
  rfl

def answer (name : String) (prov : Provenance) (found : Option Expr) : EvalM Expr :=
  found.elim (EvalM.fail .unknownBinding (.symbol name prov)) fun value =>
    pure (value.withProv (value.prov.via prov))

theorem reference_eq (name : String) (prov : Provenance) :
    reference name prov = (do answer name prov ((← get).env.lookup? name)) := by
  refine bind_congr fun m => ?_
  cases m.env.lookup? name <;> rfl

/-- Closure under what is made of values, of expressions with a property `V` and calls with a property
`K`. -/
structure ClosedValues (V : Expr → Prop) (K : Call → Prop) : Prop where
  parts {head : Expr} {operands : List Expr} {prov : Provenance} :
    V (.list (head :: operands) prov) → V head ∧ ∀ x ∈ operands, V x
  callable {x : String} {xprov : Provenance} {body : Expr} {env : Option Bindings}
    {prov : Provenance} {arg : Expr} :
    V (.function x xprov body env prov) → V arg → K ⟨x, body, env, arg⟩
  int {site : Expr} (n : Int64) : V site → V (.int n site.prov)
  list {site : Expr} {values : List Expr} :
    V site → (∀ x ∈ values, V x) → V (.list values site.prov)
  map {site : Expr} {values : List Expr} :
    V site → (∀ x ∈ values, V x) → V (.map (Entries.setAll [] values) site.prov)
  expander {site : Expr} {x : String} {xprov : Provenance} {body : Expr} {env : Option Bindings}
    {p prov : Provenance} : V (.primitive .mkMacro p) →
    V site → V (.function x xprov body env prov) → V (.expander x xprov body env site.prov)

theorem closedValues_true : ClosedValues (fun _ => True) (fun _ => True) where
  parts _ := ⟨trivial, fun _ _ => trivial⟩
  callable _ _ := trivial
  int _ _ := trivial
  list _ _ := trivial
  map _ _ := trivial
  expander _ _ _ := trivial

/-- Closure also of pairs of computations whose values have a property. -/
structure Closed (V : Expr → Prop) (K : Call → Prop)
    (R : ∀ {α : Type}, (α → Prop) → EvalM α → EvalM α → Prop) : Prop extends ClosedValues V K where
  pure {α : Type} {P : α → Prop} {a : α} : P a → R P (pure a) (pure a)
  bind {α β : Type} {P : α → Prop} {Q : β → Prop} {x y : EvalM α} {f k : α → EvalM β} :
    R P x y → (∀ a, P a → R Q (f a) (k a)) → R Q (x >>= f) (y >>= k)
  fail {α : Type} {P : α → Prop} (cause : EvalError.Cause) {subject : Expr} :
    V subject → R P (EvalM.fail cause subject) (EvalM.fail cause subject)
  assign {name : String} {value : Expr} {p : Provenance} : V (.primitive .define p) →
    V value → R (fun _ => True) (EvalM.assign name value) (EvalM.assign name value)
  reference {name : String} {prov : Provenance} :
    V (.symbol name prov) → R V (reference name prov) (reference name prov)

/-- Closure under all steps of evaluation; calls of macros have a property `M`. -/
structure Respected (opts opts' : Options) (V : Expr → Prop) (K M : Call → Prop)
    (R : ∀ {α : Type}, (α → Prop) → EvalM α → EvalM α → Prop) : Prop extends Closed V K R where
  outOfFuel {α : Type} {P : α → Prop} : R P (throw .outOfFuel) (throw .outOfFuel)
  capture {site body : Expr} (ev ev' : Evaluator) (x : String) (xprov : Provenance) :
    V site → V body → R V (special opts ev site .lambda [.symbol x xprov, body])
      (special opts' ev' site .lambda [.symbol x xprov, body])
  macroCall {e : Expr} : V e →
    R (fun c => ∀ call ∈ c, M call) (do return Call.ofMacro? (← get).env e)
      (do return Call.ofMacro? (← get).env e)
  called {c : Call} : M c → K c
  counted {c : Call} : M c → R (fun _ => True)
    (modify fun m => { m with stats := { m.stats with expansions := m.stats.expansions + 1 } })
    (modify fun m => { m with stats := { m.stats with expansions := m.stats.expansions + 1 } })
  call {ev ev' : Evaluator} {c : Call} :
    K c → (∀ e, V e → R V (ev e) (ev' e)) → R V (c.run ev) (c.run ev')
  nested {e : Expr} {x y : EvalM Expr} :
    V e → R V x y → R V (EvalM.nested opts e x) (EvalM.nested opts' e y)

/-- Closure under what is done with a pair of evaluators for subexpressions. No fuel is spent here. -/
structure Composed (opts opts' : Options) (ev ev' : Evaluator) (V : Expr → Prop) (K : Call → Prop)
    (R : ∀ {α : Type}, (α → Prop) → EvalM α → EvalM α → Prop) : Prop extends Closed V K R where
  capture {site body : Expr} (x : String) (xprov : Provenance) :
    V site → V body → R V (special opts ev site .lambda [.symbol x xprov, body])
      (special opts' ev' site .lambda [.symbol x xprov, body])
  eval {e : Expr} : V e → R V (ev e) (ev' e)
  run {c : Call} : K c → R V (c.run ev) (c.run ev')

namespace Closed

variable {V : Expr → Prop} {K : Call → Prop} {R : ∀ {α : Type}, (α → Prop) → EvalM α → EvalM α → Prop}

theorem numbers (h : Closed V K R) {values : List Expr} (hvs : ∀ x ∈ values, V x) :
    R (fun _ => True) (numbers values) (numbers values) := by
  induction values with
  | nil => exact h.pure trivial
  | cons value values ih =>
      obtain ⟨hv, hrest⟩ := List.forall_mem_cons.mp hvs
      cases value with
      | int n prov => exact h.bind (ih hrest) fun ns _ => h.pure trivial
      | _ => exact h.fail _ hv

theorem wrongArity (h : Closed V K R) {site : Expr} (hsite : V site) (operands : List Expr) (n : Nat) :
    R V (wrongArity site operands n) (wrongArity site operands n) := by
  unfold Eval.wrongArity
  split
  · exact h.fail _ hsite
  · exact h.fail _ hsite

end Closed

namespace Composed

variable {opts opts' : Options} {ev ev' : Evaluator} {V : Expr → Prop} {K : Call → Prop}
  {R : ∀ {α : Type}, (α → Prop) → EvalM α → EvalM α → Prop}

theorem apply (h : Composed opts opts' ev ev' V K R) {site callee arg : Expr} (hsite : V site)
    (hcallee : V callee) (harg : V arg) :
    R V (apply ev site callee arg) (apply ev' site callee arg) := by
  cases callee with
  | function x xprov body env prov => exact h.run (h.callable hcallee harg)
  | _ => exact h.fail _ hsite

theorem applyAll (h : Composed opts opts' ev ev' V K R) {site callee : Expr} (hsite : V site)
    (hcallee : V callee) {operands : List Expr} (hops : ∀ x ∈ operands, V x) :
    R V (applyAll ev site callee operands) (applyAll ev' site callee operands) := by
  induction operands generalizing callee with
  | nil => exact h.pure hcallee
  | cons operand operands ih =>
      obtain ⟨ho, hos⟩ := List.forall_mem_cons.mp hops
      refine h.bind (h.eval ho) fun arg harg => ?_
      refine h.bind (h.apply hsite hcallee harg) fun result hresult => ?_
      exact ih hresult hos

theorem evalAll (h : Composed opts opts' ev ev' V K R) {operands : List Expr}
    (hops : ∀ x ∈ operands, V x) :
    R (fun values => ∀ x ∈ values, V x) (evalAll ev operands) (evalAll ev' operands) := by
  induction operands with
  | nil => exact h.pure (by simp)
  | cons operand operands ih =>
      obtain ⟨ho, hos⟩ := List.forall_mem_cons.mp hops
      refine h.bind (h.eval ho) fun value hvalue => ?_
      refine h.bind (ih hos) fun values hvalues => ?_
      exact h.pure (List.forall_mem_cons.mpr ⟨hvalue, hvalues⟩)

theorem special (h : Composed opts opts' ev ev' V K R) {site : Expr} (hsite : V site)
    (kind : Special) {operands : List Expr} (hops : ∀ x ∈ operands, V x) :
    R V (special opts ev site kind operands) (special opts' ev' site kind operands) := by
  cases kind with
  | unquote => exact h.fail _ hsite
  | quote =>
      rcases operands with _ | ⟨a, _ | ⟨b, rest⟩⟩
      · exact h.wrongArity hsite [] 1
      · exact h.pure (hops a (by simp))
      · exact h.wrongArity hsite (a :: b :: rest) 1
  | quasiquote =>
      rcases operands with _ | ⟨a, _ | ⟨b, rest⟩⟩
      · exact h.wrongArity hsite [] 1
      · exact h.pure (hops a (by simp))
      · exact h.wrongArity hsite (a :: b :: rest) 1
  | the =>
      rcases operands with _ | ⟨a, _ | ⟨b, _ | ⟨c, rest⟩⟩⟩
      · exact h.wrongArity hsite [] 2
      · exact h.wrongArity hsite [a] 2
      · exact h.bind (h.eval (hops a (by simp))) fun _ _ => h.eval (hops b (by simp))
      · exact h.wrongArity hsite (a :: b :: c :: rest) 2
  | lambda =>
      by_cases hlen : operands.length = 2
      · obtain ⟨param, body, rfl⟩ := List.length_eq_two.mp hlen
        cases param with
        | symbol x xprov => exact h.capture x xprov hsite (hops body (by simp))
        | _ => exact h.fail _ (hops _ (by simp))
      · rw [special_lambda_of_length_ne opts site hlen, special_lambda_of_length_ne opts' site hlen]
        exact h.wrongArity hsite operands 2

theorem arithmetic (h : Composed opts opts' ev ev' V K R) {site : Expr} (hsite : V site)
    (combine : List Int64 → Int64) {operands : List Expr} (hops : ∀ x ∈ operands, V x) :
    R V (do Pure.pure (Expr.int (combine (← Eval.numbers (← Eval.evalAll ev operands))) site.prov))
      (do Pure.pure (Expr.int (combine (← Eval.numbers (← Eval.evalAll ev' operands))) site.prov)) := by
  refine h.bind (h.evalAll hops) fun values hvalues => ?_
  exact h.bind (h.numbers hvalues) fun ns _ => h.pure (h.int _ hsite)

theorem primitive (h : Composed opts opts' ev ev' V K R) {site : Expr} (hsite : V site)
    {op : Primitive} {p : Provenance} (hop : V (.primitive op p)) {operands : List Expr}
    (hops : ∀ x ∈ operands, V x) :
    R V (primitive ev site op operands) (primitive ev' site op operands) := by
  cases op with
  | list => exact h.bind (h.evalAll hops) fun values hvalues => h.pure (h.list hsite hvalues)
  | map =>
      simp only [Eval.primitive]
      split
      · exact h.bind (h.evalAll hops) fun values hvalues => h.pure (h.map hsite hvalues)
      · exact h.fail _ hsite
  | add => exact h.arithmetic hsite _ hops
  | mul => exact h.arithmetic hsite _ hops
  | sub =>
      cases operands with
      | nil => exact h.fail _ hsite
      | cons operand operands => exact h.arithmetic hsite difference hops
  | define =>
      by_cases hlen : operands.length = 2
      · obtain ⟨name, operand, rfl⟩ := List.length_eq_two.mp hlen
        cases name with
        | symbol x xprov =>
            refine h.bind (h.eval (hops operand (by simp))) fun value hvalue => ?_
            exact h.bind (h.assign hop hvalue) fun _ _ => h.pure hvalue
        | _ => exact h.fail _ (hops _ (by simp))
      · rw [primitive_define_of_length_ne site hlen, primitive_define_of_length_ne site hlen]
        exact h.wrongArity hsite operands 2
  | mkMacro =>
      rcases operands with _ | ⟨a, _ | ⟨b, rest⟩⟩
      · exact h.wrongArity hsite [] 1
      · refine h.bind (h.eval (hops a (by simp))) fun value hvalue => ?_
        cases value with
        | function x xprov body env prov => exact h.pure (h.expander hop hsite hvalue)
        | _ => exact h.fail _ hvalue
      · exact h.wrongArity hsite (a :: b :: rest) 1

theorem evalExpanded (h : Composed opts opts' ev ev' V K R) {e : Expr} (he : V e) :
    R V (evalExpanded opts ev e) (evalExpanded opts' ev' e) := by
  cases e with
  | symbol name prov => exact h.reference he
  | expander x xprov body env prov => exact h.fail _ he
  | list items prov =>
      cases items with
      | nil => exact h.pure he
      | cons head operands =>
          obtain ⟨hhead, hops⟩ := h.parts he
          refine h.bind (h.eval hhead) fun callee hcallee => ?_
          cases callee with
          | special kind p => exact h.special he kind hops
          | primitive op p => exact h.primitive he hcallee hops
          | _ => exact h.applyAll he hcallee hops
  | _ => exact h.pure he

end Composed

namespace Respected

variable {opts opts' : Options} {V : Expr → Prop} {K M : Call → Prop}
  {R : ∀ {α : Type}, (α → Prop) → EvalM α → EvalM α → Prop} {ev ev' : Evaluator}

theorem composed (h : Respected opts opts' V K M R) (hev : ∀ e, V e → R V (ev e) (ev' e)) :
    Composed opts opts' ev ev' V K R where
  toClosed := h.toClosed
  capture := h.capture ev ev'
  eval := hev _
  run hc := h.call hc hev

theorem expandWith (h : Respected opts opts' V K M R) (hev : ∀ e, V e → R V (ev e) (ev' e))
    (fuel : Nat) {e : Expr} (he : V e) : R V (expandWith ev fuel e) (expandWith ev' fuel e) := by
  induction fuel generalizing e with
  | zero => exact h.outOfFuel
  | succ fuel ih =>
      rw [expandWith_succ, expandWith_succ]
      refine h.bind (h.macroCall he) fun c hc => ?_
      cases c with
      | none => exact h.pure he
      | some c =>
          have hcall : R V (callMacro ev c) (callMacro ev' c) :=
            h.bind (h.counted (hc c rfl)) fun _ _ => h.call (h.called (hc c rfl)) hev
          refine h.bind hcall fun e' he' => ?_
          by_cases heq : e.equal e' = true
          · simp only [heq, if_true]
            exact h.pure he'
          · simp only [heq, Bool.false_eq_true, if_false]
            exact ih he'

theorem eval (h : Respected opts opts' V K M R) (fuel : Nat) {e : Expr} (he : V e) :
    R V (eval opts fuel e) (eval opts' fuel e) := by
  induction fuel generalizing e with
  | zero => exact h.outOfFuel
  | succ fuel ih =>
      apply h.nested he
      exact h.bind (h.expandWith (fun _ => ih) (fuel + 1) he) fun e' he' =>
        (h.composed fun _ => ih).evalExpanded he'

end Respected

end Eval

end SmallLisp
