import SmallLisp.Eval.Evaluator
import Mathlib.Order.Defs.Unbundled

namespace SmallLisp

namespace Machine

structure Balanced (m m' : Machine) : Prop where
  saved : m'.env.saved = m.env.saved
  depth : m'.depth = m.depth

structure Extends (m m' : Machine) : Prop extends Balanced m m' where
  bound : ∀ name, (m.env.lookup? name).isSome → (m'.env.lookup? name).isSome

structure Restores (m m' : Machine) : Prop extends Balanced m m' where
  current : m'.env.current = m.env.current

theorem Balanced.trans {m₁ m₂ m₃ : Machine} (h : Balanced m₁ m₂) (k : Balanced m₂ m₃) :
    Balanced m₁ m₃ :=
  ⟨k.saved.trans h.saved, k.depth.trans h.depth⟩

theorem Restores.toExtends {m m' : Machine} (h : Restores m m') : Extends m m' := by
  refine ⟨h.toBalanced, ?_⟩
  intro name hb
  simpa only [Env.lookup?, h.current] using hb

instance : IsPreorder Machine Balanced where
  refl _ := ⟨rfl, rfl⟩
  trans _ _ _ h k := h.trans k

instance : IsPreorder Machine Extends where
  refl m := ⟨refl_of Balanced m, fun _ h => h⟩
  trans _ _ _ h k := ⟨h.toBalanced.trans k.toBalanced,
    fun name hb => k.bound name (h.bound name hb)⟩

instance : IsPreorder Machine Restores where
  refl m := ⟨refl_of Balanced m, rfl⟩
  trans _ _ _ h k := ⟨h.toBalanced.trans k.toBalanced, k.current.trans h.current⟩

theorem extends_assign (m : Machine) (name : String) (value : Expr) :
    Extends m { m with env := m.env.assign name value } := by
  refine ⟨⟨rfl, rfl⟩, ?_⟩
  intro other hb
  show ((m.env.assign name value).lookup? other).isSome
  rw [Env.lookup?_assign]
  split
  · rfl
  · exact hb

end Machine

namespace EvalM

variable {α β : Type}

def after (action : EvalM α) (m : Machine) : Machine :=
  match action m with
  | .ok _ m' => m'
  | .error _ m' => m'

def halt? (action : EvalM α) (m : Machine) : Option Halt :=
  match action m with
  | .ok _ _ => none
  | .error halt _ => some halt

/-- From every state a computation leads to a related one, and it leaves no checkpoint that was not
entered. -/
def Keeps (R : Machine → Machine → Prop) (action : EvalM α) : Prop :=
  ∀ m, R m (action.after m) ∧ action.halt? m ≠ some .underflow

variable {R : Machine → Machine → Prop}

theorem Keeps.mono {S : Machine → Machine → Prop} (hRS : ∀ {m m'}, R m m' → S m m')
    {action : EvalM α} (h : action.Keeps R) : action.Keeps S :=
  fun m => ⟨hRS (h m).1, (h m).2⟩

theorem Keeps.toExtends {action : EvalM α} (h : action.Keeps Machine.Restores) :
    action.Keeps Machine.Extends :=
  h.mono Machine.Restores.toExtends

theorem keeps_pure [IsPreorder Machine R] (a : α) : Keeps R (pure a : EvalM α) :=
  fun m => ⟨refl_of R m, (Option.some_ne_none _).symm⟩

theorem keeps_get [IsPreorder Machine R] : Keeps R (get : EvalM Machine) :=
  fun m => ⟨refl_of R m, (Option.some_ne_none _).symm⟩

theorem keeps_modify (f : Machine → Machine) (h : ∀ m, R m (f m)) :
    Keeps R (modify f : EvalM PUnit) :=
  fun m => ⟨h m, (Option.some_ne_none _).symm⟩

theorem keeps_throw [IsPreorder Machine R] {halt : Halt} (h : halt ≠ .underflow) :
    Keeps R (throw halt : EvalM α) :=
  fun m => ⟨refl_of R m, fun he => h (Option.some.inj he)⟩

theorem keeps_fail [IsPreorder Machine R] (cause : EvalError.Cause) (subject : Expr) :
    Keeps R (fail cause subject : EvalM α) :=
  keeps_throw (by simp)

theorem keeps_bind_of_value [IsPreorder Machine R] {x : EvalM α} {f : α → EvalM β}
    (hx : x.Keeps R) (hf : ∀ m a m', x m = .ok a m' → (f a).Keeps R) : (x >>= f).Keeps R := by
  intro m
  have h := hx m
  simp only [after, halt?, bind, EStateM.bind] at h ⊢
  cases hr : x m with
  | error halt m' => simpa only [hr] using h
  | ok a m' =>
      simp only [hr] at h ⊢
      have hk := hf m a m' hr m'
      exact ⟨trans_of R h.1 hk.1, hk.2⟩

theorem keeps_bind [IsPreorder Machine R] {x : EvalM α} {f : α → EvalM β}
    (hx : x.Keeps R) (hf : ∀ a, (f a).Keeps R) : (x >>= f).Keeps R :=
  keeps_bind_of_value hx fun _ a _ _ => hf a

theorem inCheckpoint_eq {action : EvalM Expr} {m : Machine}
    (h : (action.after { m with env := m.env.enter }).env.saved = m.env.enter.saved) :
    inCheckpoint action m = match action { m with env := m.env.enter } with
      | .ok value m' => .ok value { m' with env := m.env }
      | .error halt m' => .error halt { m' with env := m.env } := by
  have hleave : (action.after { m with env := m.env.enter }).env.leave? = some m.env := by
    rw [Env.leave?, h]
    rfl
  simp only [after] at hleave
  simp only [inCheckpoint]
  cases hr : action { m with env := m.env.enter } with
  | ok value m' =>
      simp only [hr] at hleave
      simp only [hleave]
  | error halt m' =>
      simp only [hr] at hleave
      simp only [hleave]

theorem keeps_inCheckpoint {action : EvalM Expr} (h : action.Keeps Machine.Balanced) :
    (inCheckpoint action).Keeps Machine.Restores := by
  intro m
  have hm := h { m with env := m.env.enter }
  simp only [after, halt?, inCheckpoint_eq hm.1.saved] at hm ⊢
  cases hr : action { m with env := m.env.enter } with
  | ok value m' =>
      simp only [hr] at hm ⊢
      exact ⟨⟨⟨rfl, hm.1.depth⟩, rfl⟩, by simp⟩
  | error halt m' =>
      simp only [hr] at hm ⊢
      exact ⟨⟨⟨rfl, hm.1.depth⟩, rfl⟩, hm.2⟩

theorem keeps_nested {action : EvalM Expr} (opts : Options) (e : Expr)
    (h : action.Keeps Machine.Extends) : (nested opts e action).Keeps Machine.Extends := by
  intro m
  simp only [after, halt?, nested]
  by_cases hb : opts.maxDepth ≠ 0 ∧ opts.maxDepth ≤ m.depth
  · simp only [if_pos hb]
    exact ⟨refl_of Machine.Extends m, by simp⟩
  · simp only [if_neg hb]
    have hm := h { m with stats := { m.stats with depth := max m.stats.depth (m.depth + 1) },
                          depth := m.depth + 1 }
    simp only [after, halt?] at hm
    generalize action _ = r at hm ⊢
    cases r with
    | ok value m' =>
        exact ⟨⟨⟨hm.1.saved, by simp [hm.1.depth]⟩, hm.1.bound⟩, by simp⟩
    | error halt m' =>
        exact ⟨⟨⟨hm.1.saved, by simp [hm.1.depth]⟩, hm.1.bound⟩, hm.2⟩

end EvalM

namespace Call

theorem saved_extend (c : Call) (env : Env) : (c.extend env).saved = env.saved := by
  simp only [extend]
  cases c.env <;> rfl

theorem keeps_body {ev : Evaluator} (hev : ∀ e, (ev e).Keeps Machine.Extends) (c : Call) :
    EvalM.Keeps Machine.Balanced (do
      modify fun m => { m with env := c.extend m.env }
      ev c.body) := by
  refine EvalM.keeps_bind (EvalM.keeps_modify _ ?_) ?_
  · intro m
    exact ⟨c.saved_extend m.env, rfl⟩
  · intro _
    exact (hev c.body).mono Machine.Extends.toBalanced

theorem run_restores {ev : Evaluator} (hev : ∀ e, (ev e).Keeps Machine.Extends) (c : Call) :
    (c.run ev).Keeps Machine.Restores := by
  refine EvalM.keeps_bind (EvalM.keeps_modify _ fun m => ⟨⟨rfl, rfl⟩, rfl⟩) ?_
  intro _
  exact EvalM.keeps_inCheckpoint (keeps_body hev c)

end Call

namespace Eval

variable {ev : Evaluator}

open EvalM Machine

theorem callMacro_restores (hev : ∀ e, (ev e).Keeps Extends) (c : Call) :
    (callMacro ev c).Keeps Restores :=
  keeps_bind (keeps_modify _ fun _ => ⟨⟨rfl, rfl⟩, rfl⟩) fun _ => Call.run_restores hev c

theorem expandOnceWith_restores (hev : ∀ e, (ev e).Keeps Extends) (e : Expr) :
    (expandOnceWith ev e).Keeps Restores := by
  refine keeps_bind keeps_get ?_
  intro m
  cases Call.ofMacro? m.env e with
  | none => exact keeps_pure e
  | some c => exact callMacro_restores hev c

theorem expandWith_restores (hev : ∀ e, (ev e).Keeps Extends) (fuel : Nat) (e : Expr) :
    (expandWith ev fuel e).Keeps Restores := by
  induction fuel generalizing e with
  | zero => exact keeps_throw (by simp)
  | succ fuel ih =>
      refine keeps_bind keeps_get ?_
      intro m
      cases Call.ofMacro? m.env e with
      | none => exact keeps_pure e
      | some c =>
          refine keeps_bind (callMacro_restores hev c) ?_
          intro e'
          split
          · exact keeps_pure e'
          · exact ih e'

theorem applyAll_extends (hev : ∀ e, (ev e).Keeps Extends) (site callee : Expr)
    (operands : List Expr) : (applyAll ev site callee operands).Keeps Extends := by
  induction operands generalizing callee with
  | nil => exact keeps_pure callee
  | cons operand operands ih =>
      refine keeps_bind (hev operand) ?_
      intro arg
      refine keeps_bind ?_ ih
      cases callee with
      | function x xprov body env prov => exact (Call.run_restores hev _).toExtends
      | _ => exact keeps_fail _ _

theorem evalAll_extends (hev : ∀ e, (ev e).Keeps Extends) (operands : List Expr) :
    (evalAll ev operands).Keeps Extends := by
  induction operands with
  | nil => exact keeps_pure []
  | cons operand operands ih =>
      refine keeps_bind (hev operand) ?_
      intro value
      exact keeps_bind ih fun values => keeps_pure _

theorem numbers_extends (values : List Expr) : (numbers values).Keeps Extends := by
  induction values with
  | nil => exact keeps_pure []
  | cons value values ih =>
      cases value with
      | int n prov => exact keeps_bind ih fun ns => keeps_pure _
      | _ => exact keeps_fail _ _

theorem wrongArity_extends {α : Type} (site : Expr) (operands : List Expr) (n : Nat) :
    (wrongArity site operands n : EvalM α).Keeps Extends := by
  unfold wrongArity
  split
  · exact keeps_fail _ _
  · exact keeps_fail _ _

theorem special_extends (opts : Options) (hev : ∀ e, (ev e).Keeps Extends) (site : Expr)
    (kind : Special) (operands : List Expr) :
    (special opts ev site kind operands).Keeps Extends := by
  unfold special
  split
  · exact keeps_pure _
  · exact wrongArity_extends _ _ _
  · exact keeps_pure _
  · exact wrongArity_extends _ _ _
  · exact keeps_bind (hev _) fun _ => hev _
  · exact wrongArity_extends _ _ _
  · exact keeps_bind keeps_get fun m => keeps_pure _
  · exact keeps_fail _ _
  · exact wrongArity_extends _ _ _
  · exact keeps_fail _ _

theorem primitive_extends (hev : ∀ e, (ev e).Keeps Extends) (site : Expr) (op : Primitive)
    (operands : List Expr) : (primitive ev site op operands).Keeps Extends := by
  have hnumbers (g : List Int64 → Expr) (os : List Expr) :
      Keeps Extends (do pure (g (← numbers (← evalAll ev os)))) :=
    keeps_bind (evalAll_extends hev os) fun values =>
      keeps_bind (numbers_extends values) fun ns => keeps_pure _
  unfold primitive
  split
  · exact keeps_bind (evalAll_extends hev _) fun values => keeps_pure _
  · split
    · exact keeps_bind (evalAll_extends hev _) fun values => keeps_pure _
    · exact keeps_fail _ _
  · refine keeps_bind (hev _) fun value => ?_
    exact keeps_bind (keeps_modify _ fun m => extends_assign m _ value) fun _ => keeps_pure value
  · exact keeps_fail _ _
  · exact wrongArity_extends _ _ _
  · refine keeps_bind (hev _) fun value => ?_
    cases value with
    | function x xprov body env prov => exact keeps_pure _
    | _ => exact keeps_fail _ _
  · exact wrongArity_extends _ _ _
  · exact hnumbers _ _
  · exact hnumbers _ _
  · exact keeps_fail _ _
  · exact hnumbers _ _

theorem reference_extends (name : String) (prov : Provenance) :
    (reference name prov).Keeps Extends := by
  refine keeps_bind keeps_get fun m => ?_
  cases m.env.lookup? name with
  | none => exact keeps_fail _ _
  | some value => exact keeps_pure _

theorem evalExpanded_extends (opts : Options) (hev : ∀ e, (ev e).Keeps Extends) (e : Expr) :
    (evalExpanded opts ev e).Keeps Extends := by
  unfold evalExpanded
  split
  · exact reference_extends _ _
  · exact keeps_fail _ _
  · refine keeps_bind (hev _) fun callee => ?_
    cases callee with
    | special kind prov => exact special_extends opts hev _ kind _
    | primitive op prov => exact primitive_extends hev _ op _
    | _ => exact applyAll_extends hev _ _ _
  · exact keeps_pure _

theorem eval_extends (opts : Options) (fuel : Nat) (e : Expr) :
    (eval opts fuel e).Keeps Extends := by
  induction fuel generalizing e with
  | zero => exact keeps_throw (by simp)
  | succ fuel ih =>
      apply keeps_nested
      exact keeps_bind (expandWith_restores ih (fuel + 1) e).toExtends
        fun e' => evalExpanded_extends opts ih e'

/-- Whatever the options, the state and the outcome: an evaluation returns to its checkpoints and
its nesting with every name still bound, and expansions and calls return to their bindings too. -/
theorem runs_leave_checkpoints_alone (opts : Options) (fuel : Nat) :
    (∀ e, (eval opts fuel e).Keeps Extends) ∧ (∀ e, (expand opts fuel e).Keeps Restores) ∧
      (∀ e, (expandOnce opts fuel e).Keeps Restores) ∧
      ∀ c : Call, (c.run (eval opts fuel)).Keeps Restores :=
  ⟨eval_extends opts fuel, expandWith_restores (eval_extends opts fuel) fuel,
    expandOnceWith_restores (eval_extends opts fuel), Call.run_restores (eval_extends opts fuel)⟩

end Eval

end SmallLisp
