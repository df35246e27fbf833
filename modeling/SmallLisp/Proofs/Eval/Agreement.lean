import SmallLisp.Proofs.Eval.DepthBound
import SmallLisp.Proofs.Expr.Agreement

namespace SmallLisp

variable {captures : Bool}

structure Machine.Agree (captures : Bool) (m n : Machine) : Prop where
  current : m.env.current.Agree captures n.env.current
  depth : m.depth = n.depth

namespace EvalM

variable {α β γ δ : Type} {S : α → β → Prop} {T : γ → δ → Prop}

theorem inCheckpoint_eq_ok {x : EvalM Expr} (hx : x.Keeps Machine.Balanced) {m m' : Machine}
    {a : Expr} : inCheckpoint x m = .ok a m' ↔
      ∃ m₁, x { m with env := m.env.enter } = .ok a m₁ ∧ { m₁ with env := m.env } = m' := by
  rw [inCheckpoint_eq (hx _).1.saved]
  cases x { m with env := m.env.enter } <;> simp

theorem nested_eq_ok {opts : Options} {e : Expr} {x : EvalM Expr} {m m' : Machine} {a : Expr} :
    nested opts e x m = .ok a m' ↔ ¬(opts.maxDepth ≠ 0 ∧ opts.maxDepth ≤ m.depth) ∧
      ∃ m₁, x (deeper m) = .ok a m₁ ∧ { m₁ with depth := m₁.depth - 1 } = m' := by
  by_cases hb : opts.maxDepth ≠ 0 ∧ opts.maxDepth ≤ m.depth
  · simp [nested, hb]
  · rw [nested_of_not_reached opts.captures hb]
    cases x (deeper m) <;> simp [hb]

/-- The second computation gives a value from every state that agrees with one where the first does. -/
def Follows (captures : Bool) (S : α → β → Prop) (x : EvalM α) (y : EvalM β) : Prop :=
  ∀ ⦃m n m' : Machine⦄ ⦃a : α⦄, m.Agree captures n → x m = .ok a m' →
    ∃ b n', y n = .ok b n' ∧ S a b ∧ m'.Agree captures n'

theorem follows_pure {a : α} {b : β} (h : S a b) : Follows captures S (pure a) (pure b) := by
  intro m n m' a' hmn hx
  cases hx
  exact ⟨b, n, rfl, h, hmn⟩

theorem follows_throw (halt : Halt) (y : EvalM β) : Follows captures S (throw halt) y := by
  intro m n m' a _ hx
  cases hx

theorem follows_modify {f g : Machine → Machine}
    (h : ∀ m n : Machine, m.Agree captures n → (f m).Agree captures (g n)) :
    Follows captures (fun _ _ => True) (modify f) (modify g) := by
  intro m n m' a hmn hx
  cases hx
  exact ⟨(), g n, rfl, trivial, h m n hmn⟩

theorem follows_bind {x : EvalM α} {y : EvalM β} {f : α → EvalM γ} {k : β → EvalM δ}
    (hxy : Follows captures S x y) (hfk : ∀ a b, S a b → Follows captures T (f a) (k b)) :
    Follows captures T (x >>= f) (y >>= k) := by
  intro m n m' c hmn h
  obtain ⟨a, m₁, hx, hf⟩ := bind_eq_ok.mp h
  obtain ⟨b, n₁, hy, hab, hmn₁⟩ := hxy hmn hx
  obtain ⟨d, n', hk, hcd, hmn'⟩ := hfk a b hab hmn₁ hf
  exact ⟨d, n', bind_eq_ok.mpr ⟨b, n₁, hy, hk⟩, hcd, hmn'⟩

theorem follows_look {f : Machine → EvalM α} {g : Machine → EvalM β}
    (h : ∀ m n : Machine, m.Agree captures n → Follows captures S (f m) (g n)) :
    Follows captures S (get >>= f) (get >>= g) :=
  fun m n _ _ hmn hx => h m n hmn hmn hx

theorem follows_inCheckpoint {x y : EvalM Expr} (hx : x.Keeps Machine.Balanced)
    (hy : y.Keeps Machine.Balanced) (hxy : Follows captures (Expr.Agree captures) x y) :
    Follows captures (Expr.Agree captures) (inCheckpoint x) (inCheckpoint y) := by
  intro m n m' a hmn h
  obtain ⟨m₁, hm₁, rfl⟩ := (inCheckpoint_eq_ok hx).mp h
  have henter : Machine.Agree captures { m with env := m.env.enter } { n with env := n.env.enter } :=
    ⟨hmn.current, hmn.depth⟩
  obtain ⟨b, n₁, hn₁, hab, hmn₁⟩ := hxy henter hm₁
  exact ⟨b, _, (inCheckpoint_eq_ok hy).mpr ⟨n₁, hn₁, rfl⟩, hab, hmn.current, hmn₁.depth⟩

theorem follows_nested (opts : Options) (e f : Expr) {x y : EvalM Expr}
    (hxy : Follows captures (Expr.Agree captures) x y) :
    Follows captures (Expr.Agree captures) (nested opts e x) (nested opts f y) := by
  intro m n m' a hmn h
  obtain ⟨hreached, m₁, hm₁, rfl⟩ := nested_eq_ok.mp h
  rw [hmn.depth] at hreached
  have hdeeper : (deeper m).Agree captures (deeper n) := ⟨hmn.current, congrArg (· + 1) hmn.depth⟩
  obtain ⟨b, n₁, hn₁, hab, hmn₁⟩ := hxy hdeeper hm₁
  exact ⟨b, _, nested_eq_ok.mpr ⟨hreached, n₁, hn₁, rfl⟩, hab, hmn₁.current,
    congrArg (· - 1) hmn₁.depth⟩

end EvalM

structure Call.Agree (captures : Bool) (c d : Call) : Prop where
  param : c.param = d.param
  body : c.body.Agree captures d.body
  env : Bindings.CapturedAgree captures c.env d.env
  arg : c.arg.Agree captures d.arg

structure Evaluator.Respects (captures : Bool) (ev : Evaluator) : Prop where
  keeps : ∀ e, (ev e).Keeps Machine.Extends
  follows : ∀ e f : Expr, e.Agree captures f →
    EvalM.Follows captures (Expr.Agree captures) (ev e) (ev f)

namespace Call

open EvalM

theorem Agree.extend {c d : Call} (h : c.Agree captures d) {env env' : Env}
    (henv : env.current.Agree captures env'.current) :
    (c.extend env).current.Agree captures (d.extend env').current := by
  obtain ⟨x, b, captured, arg⟩ := c
  obtain ⟨y, b', captured', arg'⟩ := d
  obtain ⟨rfl, hbody, ⟨hsome, hcaptured⟩, harg⟩ := h
  cases captured with
  | none =>
      cases captured' with
      | none => exact henv.set _ harg
      | some cs => cases hsome
  | some bs =>
      cases captured' with
      | none => cases hsome
      | some cs => exact (hcaptured bs rfl cs rfl).2.set _ harg

theorem follows_run {ev : Evaluator} (hev : ev.Respects captures) {c d : Call}
    (h : c.Agree captures d) : Follows captures (Expr.Agree captures) (c.run ev) (d.run ev) := by
  refine follows_bind (follows_modify fun m n hmn => ⟨hmn.current, hmn.depth⟩) fun _ _ _ => ?_
  refine follows_inCheckpoint (keeps_body hev.keeps c) (keeps_body hev.keeps d) ?_
  refine follows_bind (follows_modify fun m n hmn => ⟨h.extend hmn.current, hmn.depth⟩) fun _ _ _ => ?_
  exact hev.follows _ _ h.body

theorem rel_ofMacro? {env env' : Env} (henv : env.current.Agree captures env'.current) {e f : Expr}
    (h : e.Agree captures f) :
    Option.Rel (Agree captures) (ofMacro? env e) (ofMacro? env' f) := by
  cases h with
  | @list xs ys p q hlen hitems =>
      have hitems := forall₂_iff_mem_zip (R := Expr.Agree captures).mpr ⟨hlen, hitems⟩
      cases hitems with
      | nil => exact .none
      | @cons x y xs ys hxy hrest =>
          have hoperands : (Expr.list xs p).Agree captures (.list ys q) := Expr.agree_list_iff.mpr hrest
          cases x with
          | expander x xp b env p' =>
              obtain ⟨yp, c, env', q', rfl, hbody, hcaptured⟩ := Expr.agree_expander_iff.mp hxy
              exact .some ⟨rfl, hbody, hcaptured, hoperands⟩
          | symbol name p' =>
              cases hxy
              have hfound := henv.get? name
              simp only [ofMacro?, Env.lookup?]
              generalize env.current.get? name = v at hfound ⊢
              generalize env'.current.get? name = w at hfound ⊢
              cases hfound with
              | none => exact .none
              | @some v w hvw =>
                  cases v with
                  | expander x xp b env p' =>
                      obtain ⟨yp, c, env', q', rfl, hbody, hcaptured⟩ := Expr.agree_expander_iff.mp hvw
                      exact .some ⟨rfl, hbody, hcaptured, hoperands⟩
                  | _ =>
                      cases hvw
                      exact .none
          | _ =>
              cases hxy
              exact .none
  | _ => exact .none

end Call

namespace Eval

open EvalM

variable {ev : Evaluator}

theorem follows_callMacro (hev : ev.Respects captures) {c d : Call} (h : c.Agree captures d) :
    Follows captures (Expr.Agree captures) (callMacro ev c) (callMacro ev d) :=
  follows_bind (follows_modify fun _ _ hmn => ⟨hmn.current, hmn.depth⟩) fun _ _ _ =>
    Call.follows_run hev h

theorem follows_expandOnceWith (hev : ev.Respects captures) {e f : Expr} (h : e.Agree captures f) :
    Follows captures (Expr.Agree captures) (expandOnceWith ev e) (expandOnceWith ev f) := by
  refine follows_look fun m n hmn => ?_
  have hcall := Call.rel_ofMacro? hmn.current h
  generalize Call.ofMacro? m.env e = c at hcall ⊢
  generalize Call.ofMacro? n.env f = d at hcall ⊢
  cases hcall with
  | none => exact follows_pure h
  | some hcd => exact follows_callMacro hev hcd

theorem expandWith_eq_loop (fuel : Nat) {e : Expr} (he : e.Keyed) :
    expandWith ev (fuel + 1) e = (do
      let e' ← expandOnceWith ev e
      if e.equal e' then pure e' else expandWith ev fuel e') := by
  have hrefl : e.equal e = true := (Expr.equal_iff_same he he).mpr (.refl e)
  rw [expandWith, expandOnceWith, bind_assoc]
  refine bind_congr fun m => ?_
  cases Call.ofMacro? m.env e with
  | none => simp [hrefl]
  | some c => rfl

theorem follows_expandWith (hev : ev.Respects captures) (fuel : Nat) {e f : Expr}
    (h : e.Agree captures f) :
    Follows captures (Expr.Agree captures) (expandWith ev fuel e) (expandWith ev fuel f) := by
  induction fuel generalizing e f with
  | zero => exact follows_throw _ _
  | succ fuel ih =>
      rw [expandWith_eq_loop fuel h.keyed, expandWith_eq_loop fuel h.keyed_right]
      refine follows_bind (follows_expandOnceWith hev h) fun e' f' h' => ?_
      rw [Expr.equal_eq_of_agree h h']
      split
      · exact follows_pure h'
      · exact ih h'

theorem follows_apply (hev : ev.Respects captures) (site site' : Expr) {f g a b : Expr}
    (hfg : f.Agree captures g) (hab : a.Agree captures b) :
    Follows captures (Expr.Agree captures) (apply ev site f a) (apply ev site' g b) := by
  cases f with
  | function x xp body env p =>
      obtain ⟨yp, body', env', q, rfl, hbody, henv⟩ := Expr.agree_function_iff.mp hfg
      exact Call.follows_run hev ⟨rfl, hbody, henv, hab⟩
  | _ => exact follows_throw _ _

theorem follows_applyAll (hev : ev.Respects captures) (site site' : Expr) {f g : Expr}
    (hfg : f.Agree captures g) {xs ys : List Expr} (hxs : List.Forall₂ (Expr.Agree captures) xs ys) :
    Follows captures (Expr.Agree captures) (applyAll ev site f xs) (applyAll ev site' g ys) := by
  induction hxs generalizing f g with
  | nil => exact follows_pure hfg
  | cons hxy _ ih =>
      refine follows_bind (hev.follows _ _ hxy) fun a b hab => ?_
      exact follows_bind (follows_apply hev site site' hfg hab) fun _ _ => ih

theorem follows_evalAll (hev : ev.Respects captures) {xs ys : List Expr}
    (hxs : List.Forall₂ (Expr.Agree captures) xs ys) :
    Follows captures (List.Forall₂ (Expr.Agree captures)) (evalAll ev xs) (evalAll ev ys) := by
  induction hxs with
  | nil => exact follows_pure .nil
  | cons hxy _ ih =>
      refine follows_bind (hev.follows _ _ hxy) fun a b hab => ?_
      exact follows_bind ih fun as bs habs => follows_pure (.cons hab habs)

theorem follows_numbers {xs ys : List Expr} (hxs : List.Forall₂ (Expr.Agree captures) xs ys) :
    Follows captures Eq (numbers xs) (numbers ys) := by
  induction hxs with
  | nil => exact follows_pure rfl
  | cons hxy _ ih =>
      cases hxy with
      | int => exact follows_bind ih fun ns ms h => follows_pure (h ▸ rfl)
      | _ => exact follows_throw _ _

theorem follows_wrongArity {S : Expr → Expr → Prop} (site : Expr) (operands : List Expr) (n : Nat)
    (y : EvalM Expr) : Follows captures S (wrongArity site operands n) y := by
  unfold wrongArity
  split
  · exact follows_throw _ _
  · exact follows_throw _ _

theorem follows_lambda {opts : Options} (hopts : opts.captures → captures) (site site' : Expr)
    {param param' body body' : Expr} (hparam : param.Agree captures param')
    (hbody : body.Agree captures body') :
    Follows captures (Expr.Agree captures) (special opts ev site .lambda [param, body])
      (special opts ev site' .lambda [param', body']) := by
  cases hparam with
  | symbol =>
      refine follows_look fun m n hmn => follows_pure ?_
      refine Expr.agree_function_iff.mpr ⟨_, _, _, _, rfl, hbody, ?_⟩
      cases hc : opts.captures with
      | false => exact ⟨rfl, by simp⟩
      | true =>
          refine ⟨rfl, ?_⟩
          rintro bs ⟨⟩ cs ⟨⟩
          exact ⟨hopts hc, hmn.current⟩
  | _ => exact follows_throw _ _

theorem follows_special {opts : Options} (hopts : opts.captures → captures)
    (hev : ev.Respects captures) (site site' : Expr) (kind : Special) {xs ys : List Expr}
    (hxs : List.Forall₂ (Expr.Agree captures) xs ys) :
    Follows captures (Expr.Agree captures) (special opts ev site kind xs)
      (special opts ev site' kind ys) := by
  cases kind with
  | unquote => exact follows_throw _ _
  | quote =>
      rcases hxs with _ | ⟨hxy, _ | ⟨hxy', hxs⟩⟩
      · exact follows_wrongArity _ _ _ _
      · exact follows_pure hxy
      · exact follows_wrongArity _ _ _ _
  | quasiquote =>
      rcases hxs with _ | ⟨hxy, _ | ⟨hxy', hxs⟩⟩
      · exact follows_wrongArity _ _ _ _
      · exact follows_pure hxy
      · exact follows_wrongArity _ _ _ _
  | the =>
      rcases hxs with _ | ⟨htype, _ | ⟨hvalue, _ | ⟨hxy, hxs⟩⟩⟩
      · exact follows_wrongArity _ _ _ _
      · exact follows_wrongArity _ _ _ _
      · exact follows_bind (hev.follows _ _ htype) fun _ _ _ => hev.follows _ _ hvalue
      · exact follows_wrongArity _ _ _ _
  | lambda =>
      rcases hxs with _ | ⟨hparam, _ | ⟨hbody, _ | ⟨hxy, hxs⟩⟩⟩
      · exact follows_wrongArity _ _ _ _
      · rw [special_lambda_of_length_ne opts site (by simp)]
        exact follows_wrongArity _ _ _ _
      · exact follows_lambda hopts site site' hparam hbody
      · rw [special_lambda_of_length_ne opts site (by simp)]
        exact follows_wrongArity _ _ _ _

theorem follows_arithmetic (hev : ev.Respects captures) (p q : Provenance)
    (combine : List Int64 → Int64) {xs ys : List Expr}
    (hxs : List.Forall₂ (Expr.Agree captures) xs ys) :
    Follows captures (Expr.Agree captures)
      (do pure (.int (combine (← numbers (← evalAll ev xs))) p))
      (do pure (.int (combine (← numbers (← evalAll ev ys))) q)) := by
  refine follows_bind (follows_evalAll hev hxs) fun as bs habs => ?_
  refine follows_bind (follows_numbers habs) fun ns ms h => ?_
  subst h
  exact follows_pure .int

theorem follows_define (hev : ev.Respects captures) (site site' : Expr) {x y v w : Expr}
    (hxy : x.Agree captures y) (hvw : v.Agree captures w) :
    Follows captures (Expr.Agree captures) (primitive ev site .define [x, v])
      (primitive ev site' .define [y, w]) := by
  cases hxy with
  | symbol =>
      refine follows_bind (hev.follows _ _ hvw) fun a b hab => ?_
      refine follows_bind (follows_modify fun m n hmn => ⟨hmn.current.set _ hab, hmn.depth⟩) ?_
      exact fun _ _ _ => follows_pure hab
  | _ => exact follows_throw _ _

theorem follows_mkMacro (hev : ev.Respects captures) (site site' : Expr) {x y : Expr}
    (hxy : x.Agree captures y) :
    Follows captures (Expr.Agree captures) (primitive ev site .mkMacro [x])
      (primitive ev site' .mkMacro [y]) := by
  refine follows_bind (hev.follows _ _ hxy) fun f g hfg => ?_
  cases hfg with
  | function hbody hsome hnames hvalues =>
      exact follows_pure (.expander hbody hsome hnames hvalues)
  | _ => exact follows_throw _ _

theorem follows_primitive (hev : ev.Respects captures) (site site' : Expr) (op : Primitive)
    {xs ys : List Expr} (hxs : List.Forall₂ (Expr.Agree captures) xs ys) :
    Follows captures (Expr.Agree captures) (primitive ev site op xs) (primitive ev site' op ys) := by
  cases op with
  | list =>
      refine follows_bind (follows_evalAll hev hxs) fun as bs habs => ?_
      exact follows_pure (Expr.agree_list_iff.mpr habs)
  | map =>
      simp only [primitive, hxs.length_eq]
      split
      · refine follows_bind (follows_evalAll hev hxs) fun as bs habs => follows_pure ?_
        have hempty : Entries.Agree captures [] [] := ⟨.nil, [], .nil, .nil⟩
        exact Expr.agree_map_iff.mpr (hempty.setAll habs)
      · exact follows_throw _ _
  | add => exact follows_arithmetic hev _ _ _ hxs
  | mul => exact follows_arithmetic hev _ _ _ hxs
  | sub =>
      cases hxs with
      | nil => exact follows_throw _ _
      | cons hxy hxs => exact follows_arithmetic hev _ _ difference (.cons hxy hxs)
  | define =>
      rcases hxs with _ | ⟨hxy, _ | ⟨hvw, _ | ⟨hxy', hxs⟩⟩⟩
      · exact follows_wrongArity _ _ _ _
      · rw [primitive_define_of_length_ne site (by simp)]
        exact follows_wrongArity _ _ _ _
      · exact follows_define hev site site' hxy hvw
      · rw [primitive_define_of_length_ne site (by simp)]
        exact follows_wrongArity _ _ _ _
  | mkMacro =>
      rcases hxs with _ | ⟨hxy, _ | ⟨hxy', hxs⟩⟩
      · exact follows_wrongArity _ _ _ _
      · exact follows_mkMacro hev site site' hxy
      · exact follows_wrongArity _ _ _ _

theorem follows_reference (name : String) (p q : Provenance) :
    Follows captures (Expr.Agree captures) (reference name p) (reference name q) := by
  refine follows_look fun m n hmn => ?_
  have hfound := hmn.current.get? name
  simp only [Env.lookup?]
  generalize m.env.current.get? name = v at hfound ⊢
  generalize n.env.current.get? name = w at hfound ⊢
  cases hfound with
  | none => exact follows_throw _ _
  | some hvw => exact follows_pure (hvw.withProv _ _)

theorem follows_evalExpanded {opts : Options} (hopts : opts.captures → captures)
    (hev : ev.Respects captures) {e f : Expr} (h : e.Agree captures f) :
    Follows captures (Expr.Agree captures) (evalExpanded opts ev e) (evalExpanded opts ev f) := by
  have hself : Follows captures (Expr.Agree captures) (pure e) (pure f) := follows_pure h
  cases h with
  | symbol => exact follows_reference _ _ _
  | expander => exact follows_throw _ _
  | list hlen hitems =>
      cases forall₂_iff_mem_zip (R := Expr.Agree captures).mpr ⟨hlen, hitems⟩ with
      | nil => exact hself
      | cons hhead hoperands =>
          refine follows_bind (hev.follows _ _ hhead) fun f g hfg => ?_
          have happly (site site' : Expr) := follows_applyAll hev site site' hfg hoperands
          cases hfg with
          | special => exact follows_special hopts hev _ _ _ hoperands
          | primitive => exact follows_primitive hev _ _ _ hoperands
          | _ => exact happly _ _
  | _ => exact hself

theorem respects_eval {opts : Options} (hopts : opts.captures → captures) (fuel : Nat) :
    Evaluator.Respects captures (eval opts fuel) := by
  refine ⟨eval_extends opts fuel, ?_⟩
  induction fuel with
  | zero => exact fun _ _ _ => follows_throw _ _
  | succ fuel ih =>
      intro e f h
      have hev : Evaluator.Respects captures (eval opts fuel) := ⟨eval_extends opts fuel, ih⟩
      apply follows_nested
      refine follows_bind (follows_expandWith hev (fuel + 1) h) fun e' f' h' => ?_
      exact follows_evalExpanded hopts hev h'

end Eval

end SmallLisp
