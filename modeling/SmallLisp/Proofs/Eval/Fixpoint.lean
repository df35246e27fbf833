import SmallLisp.Proofs.Eval.Agreement
import Mathlib.Logic.Relation

namespace SmallLisp

namespace Eval

open EvalM

variable {captures : Bool} {ev : Evaluator}

def Expands (ev : Evaluator) (s t : Expr × Machine) : Prop :=
  expandOnceWith ev s.1 s.2 = .ok t.1 t.2 ∧ s.1.equal t.1 = false

theorem agree_of_expandOnceWith (hev : ev.Respects captures) {e e' : Expr} {m m' : Machine}
    (he : e.Agree captures e) (hm : m.Agree captures m) (h : expandOnceWith ev e m = .ok e' m') :
    e'.Agree captures e' ∧ m'.Agree captures m' := by
  obtain ⟨f, n, hn, hagree, hmn⟩ := follows_expandOnceWith hev he hm h
  rw [h] at hn
  cases hn
  exact ⟨hagree, hmn⟩

theorem exists_last_of_expandWith (hev : ev.Respects captures) {fuel : Nat} {e e' : Expr}
    {m m' : Machine} (he : e.Agree captures e) (hm : m.Agree captures m)
    (h : expandWith ev fuel e m = .ok e' m') :
    ∃ last n, Relation.ReflTransGen (Expands ev) (e, m) (last, n) ∧
      expandOnceWith ev last n = .ok e' m' ∧ last.equal e' = true ∧
      last.Agree captures last ∧ n.Agree captures n := by
  induction fuel generalizing e m with
  | zero => cases h
  | succ fuel ih =>
      rw [expandWith_eq_loop fuel he.keyed] at h
      obtain ⟨e₁, m₁, hstep, h⟩ := bind_eq_ok.mp h
      obtain ⟨he₁, hm₁⟩ := agree_of_expandOnceWith hev he hm hstep
      cases heq : e.equal e₁ with
      | true =>
          simp only [heq, if_true] at h
          cases h
          exact ⟨e, m, .refl, hstep, heq, he, hm⟩
      | false =>
          simp only [heq, Bool.false_eq_true, if_false] at h
          obtain ⟨last, n, hsteps, hlast⟩ := ih he₁ hm₁ h
          exact ⟨last, n, .head ⟨hstep, heq⟩ hsteps, hlast⟩

theorem expandOnceWith_again (hev : ev.Respects captures) {e e' : Expr} {m m' : Machine}
    (hm : m.Agree captures m) (hagree : e.Agree captures e')
    (h : expandOnceWith ev e m = .ok e' m') :
    ∃ e'' m'', expandOnceWith ev e' m' = .ok e'' m'' ∧ e'.equal e'' = true := by
  have hrestores := (expandOnceWith_restores hev.keeps e m).1
  simp only [after, h] at hrestores
  have hmm' : m.Agree captures m' := by
    refine ⟨?_, hrestores.depth.symm⟩
    rw [hrestores.current]
    exact hm.current
  obtain ⟨e'', m'', h', hagree', _⟩ := follows_expandOnceWith hev hagree hmm' h
  exact ⟨e'', m'', h', hagree'.equal⟩

/-- Expansion takes steps until one gives an equal expression. What it then gives is fixed, that is, the
next step gives an equal expression too, if nothing is ever captured or the last step has changed nothing
that the macros in the expression have captured. -/
theorem expansion_is_fixed_but_for_captures {opts : Options} (hopts : opts.captures → captures)
    (fuel : Nat) {e e' : Expr} {m m' : Machine} (he : e.Built captures)
    (hm : ∀ b ∈ m.env.current, b.2.Built captures) (h : expand opts fuel e m = .ok e' m') :
    ∃ last n, Relation.ReflTransGen (Expands (eval opts fuel)) (e, m) (last, n) ∧
      expandOnce opts fuel last n = .ok e' m' ∧ last.equal e' = true ∧
      (captures = false ∨ last.Agree captures e' →
        ∃ e'' m'', expandOnce opts fuel e' m' = .ok e'' m'' ∧ e'.equal e'' = true) := by
  have hev := respects_eval hopts fuel
  have hmm : m.Agree captures m :=
    ⟨List.forall₂_same.mpr fun b hb => ⟨rfl, (hm b hb).agree⟩, rfl⟩
  obtain ⟨last, n, hsteps, hlast, heq, hself, hn⟩ := exists_last_of_expandWith hev he.agree hmm h
  refine ⟨last, n, hsteps, hlast, heq, ?_⟩
  rintro (rfl | hagree)
  · have he' := (agree_of_expandOnceWith hev hself hn hlast).1
    have hsame := (Expr.equal_iff_same hself.keyed he'.keyed).mp heq
    exact expandOnceWith_again hev hn (hsame.agree hself he') hlast
  · exact expandOnceWith_again hev hn hagree hlast

theorem expansion_is_fixed_but_for_captures_of_own_call :
    let call (n : Int64) := Expr.list [.symbol "m" [], .int n []] []
    let repeated := Expr.expander "xs" [] (.symbol "again" []) none []
    let m := Machine.ofEnv ⟨[("m", repeated), ("again", call 2)], .empty⟩
    (call 1).Built false ∧ (∀ b ∈ m.env.current, b.2.Built false) ∧
      ∃ m', expand .default 2 (call 1) m = .ok (call 2) m' ∧
        ∃ e'' m'', expandOnce .default 2 (call 2) m' = .ok e'' m'' ∧ (call 2).equal e'' = true := by
  intro call repeated m
  have hcall (n : Int64) : (call n).Built false := .list (by simp [Expr.Built.symbol, Expr.Built.int])
  have hrepeated : repeated.Built false := .expander .symbol (by simp) (by simp)
  have hm : ∀ b ∈ m.env.current, b.2.Built false := by
    simp [m, Machine.ofEnv, hrepeated, hcall]
  have hexpand : ∃ m', expand .default 2 (call 1) m = .ok (call 2) m' := ⟨_, rfl⟩
  obtain ⟨m', hexpand⟩ := hexpand
  obtain ⟨last, n, _, _, _, hfixed⟩ :=
    expansion_is_fixed_but_for_captures (by simp [Options.default]) 2 (hcall 1) hm hexpand
  exact ⟨hcall 1, hm, m', hexpand, hfixed (.inl rfl)⟩

/-- A macro whose body is a name looks like every other one, whatever it has captured for the name. Of two
such macros, the first of which gives a call of the second, only one is called. -/
theorem expansion_stops_short :
    let looking (b : Expr) := Expr.expander "x" [] (.symbol "y" []) (some [("y", b)]) []
    let inner := Expr.list [looking (.int 5 [])] []
    let outer := Expr.list [looking inner] []
    outer.Built true ∧
      ∃ m' m'', expand ⟨true, 0⟩ 1 outer (.ofEnv .empty) = .ok inner m' ∧
        expandOnce ⟨true, 0⟩ 1 inner m' = .ok (.int 5 []) m'' ∧ inner.equal (.int 5 []) = false := by
  intro looking inner outer
  have hlooking {b : Expr} (hb : b.Built true) : (looking b).Built true :=
    .expander .symbol (by simp) (by simpa using hb)
  have houter : outer.Built true := by
    refine .list (List.forall_mem_singleton.mpr (hlooking (.list ?_)))
    exact List.forall_mem_singleton.mpr (hlooking .int)
  exact ⟨houter, _, _, rfl, rfl, rfl⟩

end Eval

end SmallLisp
