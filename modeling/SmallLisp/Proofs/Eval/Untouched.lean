import SmallLisp.Proofs.Eval.Checkpoints
import SmallLisp.Proofs.Eval.Respected
import SmallLisp.Proofs.Expr.Tame

namespace SmallLisp

abbrev Expr.Inert (e : Expr) : Prop := e.Tame fun _ => False

abbrev Bindings.Inert (b : Bindings) : Prop := b.Tame fun _ => False

structure Call.Tame (ops : Primitive → Prop) (c : Call) : Prop where
  body : c.body.Tame ops
  captured : ∀ b ∈ c.env, Bindings.Tame ops b
  arg : c.arg.Tame ops

abbrev Call.Inert (c : Call) : Prop := c.Tame fun _ => False

structure Machine.Spares (m m' : Machine) : Prop where
  env : m'.env = m.env
  expansions : m'.stats.expansions = m.stats.expansions

namespace Machine.Spares

variable {m₁ m₂ m₃ : Machine}

theorem refl (m : Machine) : m.Spares m := ⟨rfl, rfl⟩

theorem trans (h : m₁.Spares m₂) (k : m₂.Spares m₃) : m₁.Spares m₃ :=
  ⟨k.env.trans h.env, k.expansions.trans h.expansions⟩

end Machine.Spares

namespace Call

variable {ops : Primitive → Prop}

theorem Tame.extend {c : Call} (h : c.Tame ops) {env : Env} (henv : env.current.Tame ops) :
    (c.extend env).current.Tame ops := by
  simp only [Call.extend]
  cases hc : c.env with
  | none => exact henv.set c.param h.arg
  | some b => exact (h.captured b hc).set c.param h.arg

theorem ofMacro?_of_tame {e : Expr} (he : e.Tame ops) {env : Env} (henv : env.current.Tame ops) :
    ofMacro? env e = none := by
  cases he with
  | list hitems =>
      next items prov =>
        cases items with
        | nil => rfl
        | cons head operands =>
            cases hitems head List.mem_cons_self with
            | symbol =>
                next name _ =>
                  simp only [ofMacro?]
                  cases hlookup : env.lookup? name with
                  | none => rfl
                  | some value => cases henv.get? hlookup <;> rfl
            | _ => rfl
  | _ => rfl

end Call

namespace EvalM

variable {α β : Type} {P : α → Prop} {Q : β → Prop}

/-- From inert bindings a computation leads to a value with a property, if to any, and whatever its
outcome the environment is the same. -/
structure Untouching (P : α → Prop) (x : EvalM α) : Prop where
  value {m m' : Machine} {a : α} : x m = .ok a m' → m.env.current.Inert → P a
  spares {m : Machine} : m.env.current.Inert → m.Spares (x.after m)

theorem Untouching.inert {x : EvalM α} (hx : x.Untouching P) {m m' : Machine} {a : α}
    (hm : m.env.current.Inert) (h : x m = .ok a m') : m'.env.current.Inert := by
  have henv := (hx.spares hm).env
  simp only [after, h] at henv
  rw [henv]
  exact hm

theorem untouching_pure {a : α} (ha : P a) : Untouching P (pure a) where
  value h _ := by
    cases h
    exact ha
  spares _ := .refl _

theorem untouching_throw (halt : Halt) : Untouching P (throw halt) where
  value h := nomatch h
  spares _ := .refl _

theorem untouching_get : Untouching (fun m : Machine => m.env.current.Inert) get where
  value h hm := by
    cases h
    exact hm
  spares _ := .refl _

theorem untouching_modify {f : Machine → Machine} (hf : ∀ m : Machine, m.Spares (f m)) :
    Untouching (fun _ => True) (modify f) where
  value _ _ := trivial
  spares {m} _ := hf m

theorem untouching_bind {x : EvalM α} {f : α → EvalM β} (hx : Untouching P x)
    (hf : ∀ a, P a → Untouching Q (f a)) : Untouching Q (x >>= f) where
  value {m m'' b} h hm := by
    obtain ⟨a, m', hr, h⟩ := bind_eq_ok.mp h
    exact (hf a (hx.value hr hm)).value h (hx.inert hm hr)
  spares {m} hm := by
    have hfirst := hx.spares hm
    simp only [after, bind, EStateM.bind] at hfirst ⊢
    cases hr : x m with
    | error halt m' => simpa only [hr] using hfirst
    | ok a m' =>
        simp only [hr] at hfirst ⊢
        exact hfirst.trans ((hf a (hx.value hr hm)).spares (hx.inert hm hr))

variable {R : Expr → Prop} {x : EvalM Expr}

theorem untouching_nested (opts : Options) (e : Expr) (hx : Untouching R x) :
    Untouching R (nested opts e x) where
  value {m m'' a} h hm := by
    simp only [nested] at h
    split at h
    · cases h
    · split at h
      · next hr =>
          cases h
          exact hx.value hr hm
      · cases h
  spares {m} hm := by
    simp only [after, nested]
    by_cases hb : opts.maxDepth ≠ 0 ∧ opts.maxDepth ≤ m.depth
    · simp only [if_pos hb]
      exact .refl m
    · simp only [if_neg hb]
      let deeper : Machine := { m with
        stats := { m.stats with depth := max m.stats.depth (m.depth + 1) }
        depth := m.depth + 1 }
      have hdeep : deeper.Spares (x.after deeper) := hx.spares hm
      simp only [after, deeper] at hdeep
      generalize x _ = r at hdeep ⊢
      cases r with
      | ok value m' => exact ⟨hdeep.env, hdeep.expansions⟩
      | error halt m' => exact ⟨hdeep.env, hdeep.expansions⟩

end EvalM

namespace Eval

open EvalM

theorem untouching_run {ev : Evaluator} {c : Call} (hc : c.Inert) {R : Expr → Prop}
    (hbody : Untouching R (ev c.body)) : Untouching R (c.run ev) := by
  refine untouching_bind (untouching_modify fun _ => ⟨rfl, rfl⟩) fun _ _ => ?_
  let body : EvalM Expr := do
    modify fun m => { m with env := c.extend m.env }
    ev c.body
  have hinert (m : Machine) (hm : m.env.current.Inert) : (c.extend m.env.enter).current.Inert :=
    hc.extend hm
  have hspares (m : Machine) (hm : m.env.current.Inert) :
      Machine.Spares { m with env := c.extend m.env.enter }
        (body.after { m with env := m.env.enter }) :=
    hbody.spares (hinert m hm)
  -- The body leaves the extended environment as it is, and so the checkpoint just entered.
  have hsaved (m : Machine) (hm : m.env.current.Inert) :
      (body.after { m with env := m.env.enter }).env.saved = m.env.enter.saved := by
    rw [(hspares m hm).env, Call.saved_extend]
  show Untouching R (inCheckpoint body)
  refine ⟨fun {m m' a} h hm => ?_, fun {m} hm => ?_⟩
  · rw [inCheckpoint_eq (hsaved m hm)] at h
    split at h
    · next hr =>
        cases h
        exact hbody.value hr (hinert m hm)
    · cases h
  · have hexpansions := (hspares m hm).expansions
    simp only [after, inCheckpoint_eq (hsaved m hm)] at hexpansions ⊢
    generalize body _ = r at hexpansions ⊢
    cases r with
    | ok value m' => exact ⟨rfl, hexpansions⟩
    | error halt m' => exact ⟨rfl, hexpansions⟩

theorem untouching_reference (name : String) (prov : Provenance) :
    Untouching Expr.Inert (reference name prov) := by
  refine untouching_bind untouching_get fun m hm => ?_
  cases hlookup : m.env.lookup? name with
  | none => exact untouching_throw _
  | some value => exact untouching_pure ((hm.get? hlookup).withProv _)

theorem untouching_capture (opts : Options) (ev : Evaluator) {site body : Expr} (x : String)
    (xprov : Provenance) (hbody : body.Inert) :
    Untouching Expr.Inert (special opts ev site .lambda [.symbol x xprov, body]) := by
  exact untouching_bind untouching_get fun m hm =>
    untouching_pure (.function hbody (hm.captured opts.captures))

theorem untouching_macroCall {e : Expr} (he : e.Inert) :
    Untouching (fun c : Option Call => ∀ call ∈ c, False) (do return Call.ofMacro? (← get).env e) := by
  refine untouching_bind untouching_get fun m hm => untouching_pure ?_
  rw [Call.ofMacro?_of_tame he hm]
  rintro call ⟨⟩

theorem closedValues_tame {ops : Primitive → Prop} (hops : ¬ ops .mkMacro) :
    ClosedValues (Expr.Tame ops) (Call.Tame ops) where
  parts h := List.forall_mem_cons.mp h.items
  callable hf harg := by
    cases hf with
    | function hbody henv => exact ⟨hbody, henv, harg⟩
  int _ _ := .int
  list _ hvalues := .list hvalues
  map _ hvalues := Expr.tame_setAll hvalues _
  expander hop := by
    cases hop with
    | primitive hop => exact absurd hop hops

theorem respected_untouching (opts : Options) :
    Respected opts opts Expr.Inert Call.Inert (fun _ => False) fun P x _ => Untouching P x where
  toClosedValues := closedValues_tame id
  pure := untouching_pure
  bind := untouching_bind
  fail _ _ _ := untouching_throw _
  outOfFuel := untouching_throw _
  assign hop := nomatch hop
  reference _ := untouching_reference _ _
  capture ev _ x xprov _ hbody := untouching_capture opts ev x xprov hbody
  macroCall := untouching_macroCall
  called hfalse := hfalse.elim
  counted hfalse := hfalse.elim
  call hc hev := untouching_run hc (hev _ hc.body)
  nested _ hx := untouching_nested opts _ hx

theorem untouching_eval (opts : Options) (fuel : Nat) {e : Expr} (he : e.Inert) :
    Untouching Expr.Inert (eval opts fuel e) :=
  (respected_untouching opts).eval fuel he

end Eval

end SmallLisp
