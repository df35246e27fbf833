import SmallLisp.Eval.Evaluator
import SmallLisp.Proofs.Expr.Bare
import Mathlib.Data.List.Basic

namespace SmallLisp

def EvalError.Cause.bare : EvalError.Cause → EvalError.Cause
  | .extraArguments surplus => .extraArguments (surplus.map Expr.bare)
  | .notCallable callee => .notCallable (callee.map Expr.bare)
  | cause => cause

def EvalError.bare (e : EvalError) : EvalError := ⟨e.cause.bare, e.subject.map Expr.bare⟩

def Halt.bare : Halt → Halt
  | .error e => .error e.bare
  | .underflow => .underflow
  | .outOfFuel => .outOfFuel

namespace Env

def bare (env : Env) : Env := ⟨env.current.bare, env.saved.map Bindings.bare⟩

theorem lookup?_bare (env : Env) (name : String) :
    env.bare.lookup? name = (env.lookup? name).map Expr.bare :=
  Bindings.get?_bare env.current name

theorem bare_assign (env : Env) (name : String) (value : Expr) :
    (env.assign name value).bare = env.bare.assign name value.bare := by
  simp [bare, assign, Bindings.bare_set]

theorem leave?_bare (env : Env) : env.bare.leave? = env.leave?.map bare := by
  obtain ⟨current, saved⟩ := env
  cases saved <;> rfl

end Env

def Machine.bare (m : Machine) : Machine := { m with env := m.env.bare }

def Call.bare (c : Call) : Call := ⟨c.param, c.body.bare, c.env.map Bindings.bare, c.arg.bare⟩

namespace EvalM

variable {α β γ δ : Type}

def bareOutcome (g : α → β) : EStateM.Result Halt Machine α → EStateM.Result Halt Machine β
  | .ok a m => .ok (g a) m.bare
  | .error halt m => .error halt.bare m.bare

/-- The second computation does without places what the first one does. -/
def Shadows (g : α → β) (x : EvalM α) (y : EvalM β) : Prop :=
  ∀ m, y m.bare = bareOutcome g (x m)

theorem Shadows.outcome_eq {g : α → β} {x x' : EvalM α} {y : EvalM β} {m m' : Machine}
    (h : Shadows g x y) (h' : Shadows g x' y) (hm : m.bare = m'.bare) :
    bareOutcome g (x m) = bareOutcome g (x' m') :=
  calc bareOutcome g (x m) = y m.bare := (h m).symm
    _ = y m'.bare := by rw [hm]
    _ = bareOutcome g (x' m') := h' m'

theorem shadows_pure (g : α → β) {a : α} {b : β} (h : b = g a) :
    Shadows g (pure a) (pure b) :=
  fun m => by rw [h]; rfl

theorem shadows_get : Shadows Machine.bare get get := fun _ => rfl

theorem shadows_modify {f f' : Machine → Machine} (h : ∀ m, f' m.bare = (f m).bare) :
    Shadows id (modify f) (modify f') := by
  intro m
  show EStateM.Result.ok () (f' m.bare) = EStateM.Result.ok () (f m).bare
  rw [h m]

theorem shadows_throw (g : α → β) {halt halt' : Halt} (h : halt' = halt.bare) :
    Shadows g (throw halt) (throw halt') :=
  fun m => by rw [h]; rfl

theorem shadows_fail (g : α → β) {cause cause' : EvalError.Cause} {subject subject' : Expr}
    (hc : cause' = cause.bare) (hs : subject' = subject.bare) :
    Shadows g (fail cause subject) (fail cause' subject') :=
  shadows_throw g (by rw [hc, hs]; rfl)

theorem shadows_bind {g : α → β} {h : γ → δ} {x : EvalM α} {y : EvalM β} {f : α → EvalM γ}
    {k : β → EvalM δ} (hxy : Shadows g x y) (hfk : ∀ a, Shadows h (f a) (k (g a))) :
    Shadows h (x >>= f) (y >>= k) := by
  intro m
  have hm := hxy m
  simp only [bind, EStateM.bind]
  cases hx : x m with
  | ok a m' =>
      rw [hx] at hm
      simp only [hm, bareOutcome]
      exact hfk a m'
  | error halt m' =>
      rw [hx] at hm
      simp only [hm, bareOutcome]

theorem shadows_inCheckpoint {x y : EvalM Expr} (h : Shadows Expr.bare x y) :
    Shadows Expr.bare (inCheckpoint x) (inCheckpoint y) := by
  intro m
  have hm : y { m.bare with env := m.bare.env.enter } =
      bareOutcome Expr.bare (x { m with env := m.env.enter }) := h { m with env := m.env.enter }
  simp only [inCheckpoint, hm]
  cases x { m with env := m.env.enter } with
  | ok value m' =>
      simp only [bareOutcome, Machine.bare, Env.leave?_bare]
      cases m'.env.leave? <;> rfl
  | error halt m' =>
      simp only [bareOutcome, Machine.bare, Env.leave?_bare]
      cases m'.env.leave? <;> rfl

theorem shadows_nested (opts : Options) (e : Expr) {x y : EvalM Expr} (h : Shadows Expr.bare x y) :
    Shadows Expr.bare (nested opts e x) (nested opts e.bare y) := by
  intro m
  simp only [nested]
  by_cases hb : opts.maxDepth ≠ 0 ∧ opts.maxDepth ≤ m.depth
  · rw [if_pos hb, if_pos (show _ ∧ opts.maxDepth ≤ m.bare.depth from hb)]
    rfl
  · rw [if_neg hb, if_neg (show ¬(_ ∧ opts.maxDepth ≤ m.bare.depth) from hb)]
    have hm := h { m with stats := { m.stats with depth := max m.stats.depth (m.depth + 1) },
                          depth := m.depth + 1 }
    simp only [Machine.bare] at hm ⊢
    rw [hm]
    generalize x _ = r
    cases r <;> rfl

end EvalM

namespace Call

open EvalM

theorem extend_bare (c : Call) (env : Env) : c.bare.extend env.bare = (c.extend env).bare := by
  obtain ⟨param, body, captured, arg⟩ := c
  cases captured with
  | none => exact (Env.bare_assign env param arg).symm
  | some bindings => exact (Env.bare_assign (env.install bindings) param arg).symm

theorem shadows_run {ev : Evaluator} (hev : ∀ e, Shadows Expr.bare (ev e) (ev e.bare)) (c : Call) :
    Shadows Expr.bare (c.run ev) (c.bare.run ev) := by
  refine shadows_bind (shadows_modify fun m => rfl) fun _ => ?_
  apply shadows_inCheckpoint
  refine shadows_bind (shadows_modify fun m => ?_) fun _ => hev c.body
  simp only [Machine.bare, extend_bare]

theorem ofMacro?_bare (env : Env) (e : Expr) :
    ofMacro? env.bare e.bare = (ofMacro? env e).map bare := by
  cases e with
  | list items prov =>
      cases items with
      | nil => rfl
      | cons head operands =>
          cases head with
          | symbol name p =>
              simp only [Expr.bare, Expr.bareItems_eq_map, List.map_cons, ofMacro?, Env.lookup?_bare]
              cases env.lookup? name with
              | none => rfl
              | some value => cases value <;> simp [Expr.bare, bare]
          | expander x xp body captured p => simp [Expr.bare, ofMacro?, bare]
          | _ => rfl
  | _ => rfl

end Call

namespace Eval

variable {ev : Evaluator}

open EvalM

theorem shadows_callMacro (hev : ∀ e, Shadows Expr.bare (ev e) (ev e.bare)) (c : Call) :
    Shadows Expr.bare (callMacro ev c) (callMacro ev c.bare) :=
  shadows_bind (shadows_modify fun _ => rfl) fun _ => Call.shadows_run hev c

theorem shadows_expandWith (hev : ∀ e, Shadows Expr.bare (ev e) (ev e.bare)) (fuel : Nat)
    (e : Expr) : Shadows Expr.bare (expandWith ev fuel e) (expandWith ev fuel e.bare) := by
  induction fuel generalizing e with
  | zero => exact shadows_throw _ rfl
  | succ fuel ih =>
      refine shadows_bind shadows_get fun m => ?_
      simp only [Machine.bare, Call.ofMacro?_bare]
      cases Call.ofMacro? m.env e with
      | none => exact shadows_pure _ rfl
      | some c =>
          refine shadows_bind (shadows_callMacro hev c) fun e' => ?_
          -- Both runs stop at the same round: equality does not look at places.
          rw [Expr.equal_bare]
          split
          · exact shadows_pure _ rfl
          · exact ih e'

theorem shadows_apply (hev : ∀ e, Shadows Expr.bare (ev e) (ev e.bare)) (site callee arg : Expr) :
    Shadows Expr.bare (apply ev site callee arg) (apply ev site.bare callee.bare arg.bare) := by
  cases callee with
  | function x xprov body env prov =>
      have h := Call.shadows_run hev ⟨x, body, env, arg⟩
      simpa [apply, Expr.bare, Call.bare] using h
  | _ => exact shadows_fail _ rfl rfl

theorem shadows_applyAll (hev : ∀ e, Shadows Expr.bare (ev e) (ev e.bare)) (site callee : Expr)
    (operands : List Expr) : Shadows Expr.bare (applyAll ev site callee operands)
      (applyAll ev site.bare callee.bare (operands.map Expr.bare)) := by
  induction operands generalizing callee with
  | nil => exact shadows_pure _ rfl
  | cons operand operands ih =>
      refine shadows_bind (hev operand) fun arg => ?_
      exact shadows_bind (shadows_apply hev site callee arg) ih

theorem shadows_evalAll (hev : ∀ e, Shadows Expr.bare (ev e) (ev e.bare)) (operands : List Expr) :
    Shadows (List.map Expr.bare) (evalAll ev operands) (evalAll ev (operands.map Expr.bare)) := by
  induction operands with
  | nil => exact shadows_pure _ rfl
  | cons operand operands ih =>
      refine shadows_bind (hev operand) fun value => ?_
      exact shadows_bind ih fun values => shadows_pure _ rfl

theorem shadows_numbers (values : List Expr) :
    Shadows id (numbers values) (numbers (values.map Expr.bare)) := by
  induction values with
  | nil => exact shadows_pure _ rfl
  | cons value values ih =>
      cases value with
      | int n prov => exact shadows_bind ih fun ns => shadows_pure _ rfl
      | _ => exact shadows_fail _ rfl rfl

theorem shadows_wrongArity {α : Type} (g : α → α) (site : Expr) (operands : List Expr) (n : Nat) :
    Shadows g (wrongArity site operands n) (wrongArity site.bare (operands.map Expr.bare) n) := by
  simp only [wrongArity, List.length_map]
  split
  · exact shadows_fail _ rfl rfl
  · exact shadows_fail _ (by simp [EvalError.Cause.bare]) rfl

theorem special_lambda_of_length_ne (opts : Options) (site : Expr) {operands : List Expr}
    (h : operands.length ≠ 2) :
    special opts ev site .lambda operands = wrongArity site operands 2 := by
  rcases operands with _ | ⟨a, _ | ⟨b, _ | ⟨c, rest⟩⟩⟩
  · rfl
  · simp only [special]
  · exact absurd rfl h
  · simp only [special]

theorem primitive_define_of_length_ne (site : Expr) {operands : List Expr}
    (h : operands.length ≠ 2) :
    primitive ev site .define operands = wrongArity site operands 2 := by
  rcases operands with _ | ⟨a, _ | ⟨b, _ | ⟨c, rest⟩⟩⟩
  · rfl
  · simp only [primitive]
  · exact absurd rfl h
  · simp only [primitive]

theorem shadows_lambda (opts : Options) (site param body : Expr) :
    Shadows Expr.bare (special opts ev site .lambda [param, body])
      (special opts ev site.bare .lambda [param.bare, body.bare]) := by
  cases param with
  | symbol x xprov =>
      refine shadows_bind shadows_get fun m => shadows_pure _ ?_
      cases opts.captures <;> simp [Expr.bare, Machine.bare, Env.bare]
  | _ => exact shadows_fail _ rfl rfl

theorem shadows_special (opts : Options) (hev : ∀ e, Shadows Expr.bare (ev e) (ev e.bare))
    (site : Expr) (kind : Special) (operands : List Expr) :
    Shadows Expr.bare (special opts ev site kind operands)
      (special opts ev site.bare kind (operands.map Expr.bare)) := by
  cases kind with
  | unquote => exact shadows_fail _ rfl rfl
  | quote =>
      rcases operands with _ | ⟨a, _ | ⟨b, rest⟩⟩
      · exact shadows_wrongArity _ site [] 1
      · exact shadows_pure _ rfl
      · exact shadows_wrongArity _ site (a :: b :: rest) 1
  | quasiquote =>
      rcases operands with _ | ⟨a, _ | ⟨b, rest⟩⟩
      · exact shadows_wrongArity _ site [] 1
      · exact shadows_pure _ rfl
      · exact shadows_wrongArity _ site (a :: b :: rest) 1
  | the =>
      rcases operands with _ | ⟨a, _ | ⟨b, _ | ⟨c, rest⟩⟩⟩
      · exact shadows_wrongArity _ site [] 2
      · exact shadows_wrongArity _ site [a] 2
      · exact shadows_bind (hev a) fun _ => hev b
      · exact shadows_wrongArity _ site (a :: b :: c :: rest) 2
  | lambda =>
      by_cases hlen : operands.length = 2
      · obtain ⟨param, body, rfl⟩ := List.length_eq_two.mp hlen
        exact shadows_lambda opts site param body
      · rw [special_lambda_of_length_ne opts site hlen,
          special_lambda_of_length_ne opts site.bare (by simpa using hlen)]
        exact shadows_wrongArity _ site operands 2

theorem shadows_define (hev : ∀ e, Shadows Expr.bare (ev e) (ev e.bare))
    (site name operand : Expr) : Shadows Expr.bare (primitive ev site .define [name, operand])
      (primitive ev site.bare .define [name.bare, operand.bare]) := by
  cases name with
  | symbol x xprov =>
      refine shadows_bind (hev operand) fun value => ?_
      refine shadows_bind (shadows_modify fun m => ?_) fun _ => shadows_pure _ rfl
      simp only [Machine.bare, Env.bare_assign]
  | _ => exact shadows_fail _ rfl rfl

theorem shadows_mkMacro (hev : ∀ e, Shadows Expr.bare (ev e) (ev e.bare)) (site operand : Expr) :
    Shadows Expr.bare (primitive ev site .mkMacro [operand])
      (primitive ev site.bare .mkMacro [operand.bare]) := by
  refine shadows_bind (hev operand) fun value => ?_
  cases value with
  | function x xprov body env prov => exact shadows_pure _ (by simp [Expr.bare])
  | _ => exact shadows_fail _ rfl rfl

theorem shadows_arithmetic (hev : ∀ e, Shadows Expr.bare (ev e) (ev e.bare)) (site : Expr)
    (combine : List Int64 → Int64) (operands : List Expr) :
    Shadows Expr.bare
      (do pure (.int (combine (← numbers (← evalAll ev operands))) site.prov))
      (do pure (.int (combine (← numbers (← evalAll ev (operands.map Expr.bare)))) site.bare.prov))
    := by
  refine shadows_bind (shadows_evalAll hev operands) fun values => ?_
  refine shadows_bind (shadows_numbers values) fun ns => ?_
  exact shadows_pure _ (by simp [Expr.bare])

theorem shadows_primitive (hev : ∀ e, Shadows Expr.bare (ev e) (ev e.bare)) (site : Expr)
    (op : Primitive) (operands : List Expr) :
    Shadows Expr.bare (primitive ev site op operands)
      (primitive ev site.bare op (operands.map Expr.bare)) := by
  cases op with
  | list =>
      refine shadows_bind (shadows_evalAll hev operands) fun values => ?_
      exact shadows_pure _ (by simp [Expr.bare])
  | map =>
      simp only [primitive, List.length_map]
      split
      · refine shadows_bind (shadows_evalAll hev operands) fun values => shadows_pure _ ?_
        have h := Entries.bare_setAll [] values
        simp only [Entries.bare] at h
        simp [Expr.bare, h]
      · exact shadows_fail _ rfl rfl
  | add => exact shadows_arithmetic hev site _ operands
  | mul => exact shadows_arithmetic hev site _ operands
  | sub =>
      cases operands with
      | nil => exact shadows_fail _ rfl rfl
      | cons operand operands => exact shadows_arithmetic hev site difference (operand :: operands)
  | define =>
      by_cases hlen : operands.length = 2
      · obtain ⟨name, operand, rfl⟩ := List.length_eq_two.mp hlen
        exact shadows_define hev site name operand
      · rw [primitive_define_of_length_ne site hlen,
          primitive_define_of_length_ne site.bare (by simpa using hlen)]
        exact shadows_wrongArity _ site operands 2
  | mkMacro =>
      rcases operands with _ | ⟨a, _ | ⟨b, rest⟩⟩
      · exact shadows_wrongArity _ site [] 1
      · exact shadows_mkMacro hev site a
      · exact shadows_wrongArity _ site (a :: b :: rest) 1

theorem shadows_reference (name : String) (prov : Provenance) :
    Shadows Expr.bare (reference name prov) (reference name []) := by
  refine shadows_bind shadows_get fun m => ?_
  simp only [Machine.bare, Env.lookup?_bare]
  cases m.env.lookup? name with
  | none => exact shadows_fail _ rfl rfl
  | some value =>
      refine shadows_pure _ ?_
      simp [Expr.withProv_bare]

theorem shadows_evalExpanded (opts : Options) (hev : ∀ e, Shadows Expr.bare (ev e) (ev e.bare))
    (e : Expr) : Shadows Expr.bare (evalExpanded opts ev e) (evalExpanded opts ev e.bare) := by
  cases e with
  | symbol name prov => exact shadows_reference name prov
  | expander x xprov body env prov => exact shadows_fail _ rfl rfl
  | list items prov =>
      cases items with
      | nil => exact shadows_pure _ rfl
      | cons head operands =>
          have hsite : (Expr.list (head :: operands) prov).bare =
              .list (head.bare :: operands.map Expr.bare) [] := by simp [Expr.bare]
          have hs (kind : Special) := shadows_special opts hev (.list (head :: operands) prov) kind operands
          have hp (op : Primitive) := shadows_primitive hev (.list (head :: operands) prov) op operands
          have ha (callee : Expr) := shadows_applyAll hev (.list (head :: operands) prov) callee operands
          simp only [hsite] at hs hp ha ⊢
          refine shadows_bind (hev head) fun callee => ?_
          cases callee with
          | special kind p => exact hs kind
          | primitive op p => exact hp op
          | _ => exact ha _
  | _ => exact shadows_pure _ rfl

theorem shadows_eval (opts : Options) (fuel : Nat) (e : Expr) :
    Shadows Expr.bare (eval opts fuel e) (eval opts fuel e.bare) := by
  induction fuel generalizing e with
  | zero => exact shadows_throw _ rfl
  | succ fuel ih =>
      apply shadows_nested
      exact shadows_bind (shadows_expandWith ih (fuel + 1) e) fun e' => shadows_evalExpanded opts ih e'

/-- Two runs from expressions and states that differ in places only have outcomes that differ in
places only: the same value or the same error, the same bindings and the same counts, and neither
goes on where the other ends. -/
theorem eval_ignores_provenance (opts : Options) (fuel : Nat) {e e' : Expr} {m m' : Machine}
    (he : e.bare = e'.bare) (hm : m.bare = m'.bare) :
    bareOutcome Expr.bare (eval opts fuel e m) = bareOutcome Expr.bare (eval opts fuel e' m') := by
  have h : Shadows Expr.bare (eval opts fuel e) (eval opts fuel e'.bare) :=
    he ▸ shadows_eval opts fuel e
  exact h.outcome_eq (shadows_eval opts fuel e') hm

theorem eval_ignores_provenance_of_call :
    let there : Provenance := [⟨some ⟨.start, ⟨4, 0, 4⟩⟩, none⟩]
    let callee (p : Provenance) := Expr.function "x" p (.symbol "x" p) none p
    let call (p : Provenance) := Expr.list [.symbol "f" p, .int 3 p] p
    let m (p : Provenance) := Machine.ofEnv (Env.empty.assign "f" (callee p))
    (call there).bare = (call []).bare ∧ (m there).bare = (m []).bare ∧
      bareOutcome Expr.bare (eval .default 3 (call there) (m there)) =
        bareOutcome Expr.bare (eval .default 3 (call []) (m [])) :=
  ⟨rfl, rfl, eval_ignores_provenance .default 3 rfl rfl⟩

end Eval

end SmallLisp
