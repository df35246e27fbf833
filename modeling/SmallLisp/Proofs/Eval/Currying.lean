import SmallLisp.Proofs.Eval.Agreement
import SmallLisp.Proofs.Eval.Fuel

namespace SmallLisp

def Expr.IsFunction (e : Expr) : Prop :=
  ∃ x xprov body env prov, e = .function x xprov body env prov

namespace EvalM

variable {α β : Type} {S : Machine → Machine → Prop}

theorem SameOutcome.ends {x : EvalM α} {y : EvalM α} {m n : Machine}
    (h : SameOutcome S (x m) (y n)) (hx : x.Ends m) : y.Ends n := by
  simp only [Ends, halt?] at hx ⊢
  generalize x m = r at h hx
  generalize y n = s at h ⊢
  cases h with
  | ok _ => exact hx
  | error _ => exact hx

theorem atAnyDepth_deeper (m : Machine) : m.AtAnyDepth (deeper m) := ⟨rfl, rfl, rfl⟩

theorem nested_congr (opts : Options) (e : Expr) {x y : EvalM Expr} {m : Machine}
    (h : x (deeper m) = y (deeper m)) : nested opts e x m = nested opts e y m := by
  by_cases hb : opts.maxDepth ≠ 0 ∧ opts.maxDepth ≤ m.depth
  · simp only [nested, if_pos hb]
  · rw [nested_of_not_reached opts.captures hb, nested_of_not_reached opts.captures hb, h]

theorem ends_nested {captures : Bool} {e : Expr} {x : EvalM Expr} {m : Machine} :
    (nested ⟨captures, 0⟩ e x).Ends m ↔ x.Ends (deeper m) := by
  simp only [Ends, halt?, nested_of_not_reached captures (b := 0) (m := m) (by simp)]
  cases x (deeper m) <;> exact Iff.rfl

theorem sameOutcome_nested {captures : Bool} {e f : Expr} {x y : EvalM Expr} {m : Machine}
    (h : SameOutcome Machine.AtAnyDepth (x (deeper m)) (y (deeper m))) :
    SameOutcome Machine.AtAnyDepth (nested ⟨captures, 0⟩ e x m) (nested ⟨captures, 0⟩ f y m) := by
  rw [nested_of_not_reached captures (by simp), nested_of_not_reached captures (by simp)]
  generalize x (deeper m) = r at h ⊢
  generalize y (deeper m) = s at h ⊢
  cases h with
  | ok h => exact .ok ⟨h.env, h.calls, h.expansions⟩
  | error h => exact .error ⟨h.env, h.calls, h.expansions⟩

end EvalM

namespace Eval

open EvalM

variable {opts : Options} {ev : Evaluator}

theorem applyAll_append (site callee : Expr) (xs ys : List Expr) :
    applyAll ev site callee (xs ++ ys) = (do
      let result ← applyAll ev site callee xs
      applyAll ev site result ys) := by
  induction xs generalizing callee with
  | nil => rw [List.nil_append, applyAll, pure_bind]
  | cons x xs ih => simp only [List.cons_append, applyAll, ih, bind_assoc]

theorem applyAll_site {site callee value : Expr} {xs : List Expr} {m m' : Machine} (site' : Expr)
    (h : applyAll ev site callee xs m = .ok value m') :
    applyAll ev site' callee xs m = .ok value m' := by
  induction xs generalizing callee m with
  | nil => exact h
  | cons x xs ih =>
      obtain ⟨arg, m₁, harg, h⟩ := bind_eq_ok.mp h
      obtain ⟨result, m₂, hresult, h⟩ := bind_eq_ok.mp h
      refine bind_eq_ok.mpr ⟨arg, m₁, harg, bind_eq_ok.mpr ⟨result, m₂, ?_, ih h⟩⟩
      cases callee with
      | function x xprov body env prov => exact hresult
      | _ => cases hresult

theorem applyAll_single (site site' : Expr) {callee : Expr} (hcallee : callee.IsFunction) (x : Expr) :
    applyAll ev site callee [x] = applyAll ev site' callee [x] := by
  obtain ⟨_, _, _, _, _, rfl⟩ := hcallee
  rfl

theorem applyHead_of_function {site head g : Expr} {operands : List Expr} {m m' : Machine}
    (h : ev head m = .ok g m') (hg : g.IsFunction) :
    applyHead opts ev site head operands m = applyAll ev site g operands m' := by
  obtain ⟨_, _, _, _, _, rfl⟩ := hg
  simp only [applyHead, bind, EStateM.bind, h]

theorem eval_of_ofMacro?_eq_none {fuel : Nat} {e : Expr} {m : Machine} (h : Call.ofMacro? m.env e = none) :
    eval opts (fuel + 1) e m = nested opts e (evalExpanded opts (eval opts fuel) e) m := by
  refine nested_congr opts e ?_
  have hexpand : expandWith (eval opts fuel) (fuel + 1) e (deeper m) = .ok e (deeper m) := by
    rw [expandWith_succ]
    exact bind_eq_ok.mpr ⟨none, deeper m, congrArg (EStateM.Result.ok · (deeper m)) h, rfl⟩
  simp only [bind, EStateM.bind, hexpand]

theorem ofMacro?_of_returns_function {f g : Expr} {m m' : Machine} (hg : g.IsFunction)
    (h : Returns opts f m (.ok g m')) (operands : List Expr) (prov : Provenance) :
    Call.ofMacro? m.env (.list (f :: operands) prov) = none := by
  obtain ⟨_ | fuel, _, h⟩ := h
  · cases h
  obtain ⟨_, _, _, _, _, rfl⟩ := hg
  cases f with
  | expander x xprov body env p =>
      rw [eval_of_ofMacro?_eq_none rfl] at h
      obtain ⟨_, _, h, _⟩ := nested_eq_ok.mp h
      cases h
  | symbol name p =>
      rw [eval_of_ofMacro?_eq_none rfl] at h
      obtain ⟨_, _, h, _⟩ := nested_eq_ok.mp h
      obtain ⟨_, _, ⟨⟩, h⟩ := bind_eq_ok.mp h
      simp only [Call.ofMacro?]
      split
      · rename_i hfound
        simp only [show (deeper m).env.lookup? name = _ from hfound] at h
        cases h
      · rfl
  | _ => rfl

variable {captures : Bool}

theorem eval_deeper {fuel fuel' : Nat} (hle : fuel ≤ fuel') {e value : Expr} {m m' : Machine}
    (h : eval ⟨captures, 0⟩ fuel e m = .ok value m') :
    ∃ n, eval ⟨captures, 0⟩ fuel' e (deeper m) = .ok value n ∧ m'.AtAnyDepth n :=
  (extended_eval (Machine.AtAnyDepth.congruent captures) hle e).eq_ok (atAnyDepth_deeper m) h

theorem extended_applyAll {S : Machine → Machine → Prop} (hS : Machine.Congruent opts S)
    {fuel fuel' : Nat} (hle : fuel ≤ fuel') (site callee : Expr) (operands : List Expr) :
    Extended S (fun _ => True) (applyAll (eval opts fuel) site callee operands)
      (applyAll (eval opts fuel') site callee operands) :=
  ((respected_extended hS).composed fun e _ => extended_eval hS hle e).applyAll trivial trivial
    fun _ _ => trivial

def ComesTo (opts : Options) (e : Expr) (m : Machine) (x : Nat → EvalM Expr) (m₁ : Machine) : Prop :=
  ∃ least, ∀ fuel, least ≤ fuel →
    ∃ y, eval opts (fuel + 1) e m = nested opts e y m ∧ y (deeper m) = x fuel m₁

theorem ComesTo.returns {e e' : Expr} {m m₁ n₁ : Machine} {x : Nat → EvalM Expr}
    (he : ComesTo ⟨captures, 0⟩ e m x m₁) (he' : ComesTo ⟨captures, 0⟩ e' m x n₁)
    (hstart : m₁.AtAnyDepth n₁)
    (hx : ∀ fuel, Extended Machine.AtAnyDepth (fun _ => True) (x fuel) (x fuel))
    {r : EStateM.Result Halt Machine Expr} (hr : Returns ⟨captures, 0⟩ e m r) :
    ∃ r', Returns ⟨captures, 0⟩ e' m r' ∧ SameOutcome Machine.AtAnyDepth r r' := by
  obtain ⟨fuel, hends, rfl⟩ := hr
  obtain ⟨least, he⟩ := he
  obtain ⟨least', he'⟩ := he'
  -- One fuel serves both expressions and is no less than what the first one is known to end with.
  obtain ⟨k, hfuel, hk, hk'⟩ : ∃ k, fuel ≤ k + 1 ∧ least ≤ k ∧ least' ≤ k :=
    ⟨max fuel (max least least'), by omega, by omega, by omega⟩
  obtain ⟨y, hy, hy₁⟩ := he k hk
  obtain ⟨z, hz, hz₁⟩ := he' k hk'
  have hmore : eval ⟨captures, 0⟩ (k + 1) e m = eval ⟨captures, 0⟩ fuel e m := eval_of_le hfuel hends
  have hdeep : (x k).Ends m₁ := by
    have hlong := Ends.of_le hfuel hends
    simp only [Ends, halt?, hy] at hlong
    have hlong := ends_nested.mp hlong
    simpa only [Ends, halt?, hy₁] using hlong
  have hsame : SameOutcome Machine.AtAnyDepth (eval ⟨captures, 0⟩ fuel e m)
      (eval ⟨captures, 0⟩ (k + 1) e' m) := by
    rw [← hmore, hy, hz]
    apply sameOutcome_nested
    rw [hy₁, hz₁]
    exact (hx k).outcome hstart hdeep
  exact ⟨_, ⟨k + 1, hsame.ends hends, rfl⟩, hsame⟩

theorem applyHead_append {f g callee : Expr} {xs : List Expr} {p : Provenance} {m n m' : Machine}
    (hf : Returns ⟨captures, 0⟩ f m (.ok g n)) (hg : g.IsFunction)
    (hcall : Returns ⟨captures, 0⟩ (.list (f :: xs) p) m (.ok callee m')) :
    ∃ m₁ least, m'.AtAnyDepth m₁ ∧ ∀ fuel, least ≤ fuel → ∀ site ys,
      applyHead ⟨captures, 0⟩ (eval ⟨captures, 0⟩ fuel) site f (xs ++ ys) (deeper m) =
        applyAll (eval ⟨captures, 0⟩ fuel) site callee ys m₁ := by
  have hnone := ofMacro?_of_returns_function hg hf xs p
  obtain ⟨j, _, hf⟩ := hf
  obtain ⟨_ | k, _, hcall⟩ := hcall
  · cases hcall
  rw [eval_of_ofMacro?_eq_none hnone] at hcall
  obtain ⟨_, m₁, happlied, rfl⟩ := nested_eq_ok.mp hcall
  replace happlied : applyHead ⟨captures, 0⟩ (eval ⟨captures, 0⟩ k) (.list (f :: xs) p) f xs
    (deeper m) = .ok callee m₁ := happlied
  obtain ⟨n₁, hhead, _⟩ := eval_deeper (Nat.le_add_right j k) hf
  -- The head has its value already with the fuel of the shorter application.
  obtain ⟨h, m₂, hhead', _⟩ := bind_eq_ok.mp happlied
  have hmore : eval ⟨captures, 0⟩ (j + k) f (deeper m) = .ok h m₂ := by
    rw [eval_of_le (Nat.le_add_left k j) (ends_of_eq_ok hhead'), hhead']
  obtain ⟨rfl, rfl⟩ : h = g ∧ m₂ = n₁ := by
    rw [hhead] at hmore
    cases hmore
    exact ⟨rfl, rfl⟩
  rw [applyHead_of_function hhead' hg] at happlied
  refine ⟨m₁, k, ⟨rfl, rfl, rfl⟩, fun fuel hk site ys => ?_⟩
  have hhead : eval ⟨captures, 0⟩ fuel f (deeper m) = .ok h m₂ := by
    rw [eval_of_le hk (ends_of_eq_ok hhead'), hhead']
  have happly : applyAll (eval ⟨captures, 0⟩ fuel) site h xs m₂ = .ok callee m₁ := by
    have hlonger := extended_applyAll (Machine.congruent_eq ⟨captures, 0⟩) hk (.list (f :: xs) p) h xs
    obtain ⟨_, hvalue, rfl⟩ := hlonger.eq_ok rfl happlied
    exact applyAll_site site hvalue
  rw [applyHead_of_function hhead hg, applyAll_append]
  simp only [bind, EStateM.bind, happly]

theorem application_is_curried (m : Machine) {f g callee : Expr} {xs : List Expr} (b : Expr)
    (p q s : Provenance) {n m' : Machine} (hf : Returns ⟨captures, 0⟩ f m (.ok g n))
    (hg : g.IsFunction) (hcall : Returns ⟨captures, 0⟩ (.list (f :: xs) p) m (.ok callee m'))
    (hcallee : callee.IsFunction) :
    ((∃ r, Returns ⟨captures, 0⟩ (.list (f :: (xs ++ [b])) q) m r) ↔
      ∃ r, Returns ⟨captures, 0⟩ (.list [.list (f :: xs) p, b] s) m r) ∧
    ∀ r r', Returns ⟨captures, 0⟩ (.list (f :: (xs ++ [b])) q) m r →
      Returns ⟨captures, 0⟩ (.list [.list (f :: xs) p, b] s) m r' →
      SameOutcome Machine.AtAnyDepth r r' := by
  -- Either way, the last operand is evaluated and the function of the shorter application applied.
  let last (fuel : Nat) : EvalM Expr := applyAll (eval ⟨captures, 0⟩ fuel) b callee [b]
  have hlast (fuel : Nat) : Extended Machine.AtAnyDepth (fun _ => True) (last fuel) (last fuel) :=
    extended_applyAll (Machine.AtAnyDepth.congruent captures) le_rfl b callee [b]
  obtain ⟨m₁, least, hm₁, hflat⟩ := applyHead_append hf hg hcall
  have hflat : ComesTo ⟨captures, 0⟩ (.list (f :: (xs ++ [b])) q) m last m₁ := by
    refine ⟨least, fun fuel hfuel => ?_⟩
    refine ⟨_, eval_of_ofMacro?_eq_none (ofMacro?_of_returns_function hg hf _ q), ?_⟩
    exact (hflat fuel hfuel _ [b]).trans (congrFun (applyAll_single _ b hcallee b) m₁)
  obtain ⟨k, _, hcall⟩ := hcall
  obtain ⟨n₁, hn₁, hmn₁⟩ := eval_deeper le_rfl hcall
  have hnested : ComesTo ⟨captures, 0⟩ (.list [.list (f :: xs) p, b] s) m last n₁ := by
    refine ⟨k, fun fuel hfuel => ⟨_, eval_of_ofMacro?_eq_none rfl, ?_⟩⟩
    have hhead : eval ⟨captures, 0⟩ fuel (.list (f :: xs) p) (deeper m) = .ok callee n₁ := by
      rw [eval_of_le hfuel (ends_of_eq_ok hn₁), hn₁]
    exact (applyHead_of_function hhead hcallee).trans (congrFun (applyAll_single _ b hcallee b) n₁)
  have hstart : m₁.AtAnyDepth n₁ := hm₁.symm.trans hmn₁
  refine ⟨⟨?_, ?_⟩, fun r r' hr hr' => ?_⟩
  · rintro ⟨r, hr⟩
    obtain ⟨r', hr', _⟩ := hflat.returns hnested hstart hlast hr
    exact ⟨r', hr'⟩
  · rintro ⟨r, hr⟩
    obtain ⟨r', hr', _⟩ := hnested.returns hflat hstart.symm hlast hr
    exact ⟨r', hr'⟩
  · obtain ⟨r'', hr'', hsame⟩ := hflat.returns hnested hstart hlast hr
    rwa [hr'.unique hr'']

theorem application_is_curried_of_constant_function :
    let inner : Expr := .list [.special .lambda [], .symbol "y" [], .symbol "x" []] []
    let constant : Expr := .function "x" [] inner (some []) []
    ∃ m m', Returns ⟨true, 0⟩ (.list [constant, .int 1 [], .int 2 []] []) (.ofEnv .empty)
        (.ok (.int 1 []) m) ∧
      Returns ⟨true, 0⟩ (.list [.list [constant, .int 1 []] [], .int 2 []] []) (.ofEnv .empty)
        (.ok (.int 1 []) m') ∧ m.AtAnyDepth m' := by
  intro inner constant
  let keeping : Expr := .function "y" [] (.symbol "x" []) (some [("x", .int 1 [])]) []
  let within (calls depth : Nat) : Machine := ⟨.empty, ⟨0, calls, depth⟩, 1⟩
  have hconstant : eval ⟨true, 0⟩ 2 constant (deeper (.ofEnv .empty)) = .ok constant (within 0 2) := rfl
  have hone (site : Expr) :
      applyAll (eval ⟨true, 0⟩ 2) site constant [.int 1 []] (within 0 2) = .ok keeping (within 1 3) :=
    bind_eq_ok.mpr ⟨.int 1 [], within 0 2, rfl, bind_eq_ok.mpr ⟨keeping, within 1 3, rfl, rfl⟩⟩
  have htwo (site : Expr) :
      applyAll (eval ⟨true, 0⟩ 2) site keeping [.int 2 []] (within 1 3) = .ok (.int 1 []) (within 2 3) :=
    bind_eq_ok.mpr ⟨.int 2 [], within 1 3, rfl, bind_eq_ok.mpr ⟨.int 1 [], within 2 3, rfl, rfl⟩⟩
  have happlied {operands : List Expr} {value : Expr} {m : Machine} (site : Expr)
      (h : applyAll (eval ⟨true, 0⟩ 2) site constant operands (within 0 2) = .ok value m) :
      applyHead ⟨true, 0⟩ (eval ⟨true, 0⟩ 2) site constant operands (deeper (.ofEnv .empty)) = .ok value m :=
    (applyHead_of_function hconstant ⟨_, _, _, _, _, rfl⟩).trans h
  have hf : Returns ⟨true, 0⟩ constant (.ofEnv .empty) (.ok constant ⟨.empty, ⟨0, 0, 1⟩, 0⟩) :=
    returns_of_eq_ok 1 rfl
  have hcall : Returns ⟨true, 0⟩ (.list (constant :: [.int 1 []]) []) (.ofEnv .empty)
      (.ok keeping ⟨.empty, ⟨0, 1, 3⟩, 0⟩) := by
    refine returns_of_eq_ok 3 ?_
    rw [eval_of_ofMacro?_eq_none rfl]
    exact nested_eq_ok.mpr ⟨by simp, within 1 3, happlied _ (hone _), rfl⟩
  have hflat : Returns ⟨true, 0⟩ (.list [constant, .int 1 [], .int 2 []] []) (.ofEnv .empty)
      (.ok (.int 1 []) ⟨.empty, ⟨0, 2, 3⟩, 0⟩) := by
    refine returns_of_eq_ok 3 ?_
    rw [eval_of_ofMacro?_eq_none rfl]
    refine nested_eq_ok.mpr ⟨by simp, within 2 3, happlied _ ?_, rfl⟩
    refine (congrFun (applyAll_append _ _ [.int 1 []] [.int 2 []]) _).trans ?_
    exact bind_eq_ok.mpr ⟨keeping, within 1 3, hone _, htwo _⟩
  have hcurried := application_is_curried _ (.int 2 []) [] [] [] hf ⟨_, _, _, _, _, rfl⟩ hcall
    ⟨_, _, _, _, _, rfl⟩
  obtain ⟨r', hnested⟩ := hcurried.1.mp ⟨_, hflat⟩
  obtain ⟨m', rfl, hsame⟩ := (hcurried.2 _ r' hflat hnested).eq_ok
  exact ⟨_, m', hflat, hnested, hsame⟩

end Eval

end SmallLisp
