import SmallLisp.Proofs.Eval.Respected
import SmallLisp.Proofs.Eval.Checkpoints

namespace SmallLisp

namespace Env

def assignAll (env : Env) (defs : List (String × Expr)) : Env :=
  defs.foldl (fun env d => env.assign d.1 d.2) env

theorem assignAll_append (env : Env) (defs defs' : List (String × Expr)) :
    env.assignAll (defs ++ defs') = (env.assignAll defs).assignAll defs' :=
  List.foldl_append

end Env

namespace Machine

structure Grows (m m' : Machine) : Prop extends Extends m m' where
  assigned : ∃ defs, m'.env = m.env.assignAll defs

theorem Restores.toGrows {m m' : Machine} (h : Restores m m') : Grows m m' := by
  refine ⟨h.toExtends, [], ?_⟩
  have henv : m'.env = ⟨m'.env.current, m'.env.saved⟩ := rfl
  rw [henv, h.current, h.saved]
  rfl

instance : IsPreorder Machine Grows where
  refl m := (refl_of Restores m).toGrows
  trans _ _ _ h k := by
    refine ⟨trans_of Extends h.toExtends k.toExtends, ?_⟩
    obtain ⟨defs, hdefs⟩ := h.assigned
    obtain ⟨defs', hdefs'⟩ := k.assigned
    exact ⟨defs ++ defs', by rw [hdefs', hdefs, Env.assignAll_append]⟩

theorem grows_assign (m : Machine) (name : String) (value : Expr) :
    Grows m { m with env := m.env.assign name value } :=
  ⟨extends_assign m name value, [(name, value)], rfl⟩

end Machine

namespace EvalM

open Machine (Grows)

variable {α β : Type} {P : α → Prop} {Q : β → Prop}

theorem env_after_nested (opts : Options) (e : Expr) (x : EvalM Expr) (m : Machine) :
    ((nested opts e x).after m).env = m.env ∨
      ∃ deeper : Machine, deeper.env = m.env ∧
        ((nested opts e x).after m).env = (x.after deeper).env := by
  simp only [after, nested]
  by_cases hb : opts.maxDepth ≠ 0 ∧ opts.maxDepth ≤ m.depth
  · exact .inl (by simp only [if_pos hb])
  · refine .inr ⟨{ m with
      stats := { m.stats with depth := max m.stats.depth (m.depth + 1) }
      depth := m.depth + 1 }, rfl, ?_⟩
    simp only [if_neg hb]
    cases x _ <;> rfl

theorem grows_nested (opts : Options) (e : Expr) {x : EvalM Expr} (h : x.Keeps Grows) :
    (nested opts e x).Keeps Grows := by
  intro m
  obtain ⟨hextends, hhalt⟩ := keeps_nested opts e (h.mono Grows.toExtends) m
  refine ⟨⟨hextends, ?_⟩, hhalt⟩
  rcases env_after_nested opts e x m with henv | ⟨deeper, hdeeper, henv⟩
  · exact ⟨[], henv⟩
  · rw [henv, ← hdeeper]
    exact (h deeper).1.assigned

structure Growing (P : α → Prop) (x : EvalM α) : Prop where
  value {m m' : Machine} {a : α} : x m = .ok a m' → P a
  keeps : x.Keeps Grows

theorem growing_pure {a : α} (ha : P a) : Growing P (pure a) where
  value h := by
    cases h
    exact ha
  keeps := keeps_pure a

theorem growing_throw {halt : Halt} (hh : halt ≠ .underflow) : Growing P (throw halt) where
  value h := nomatch h
  keeps := keeps_throw hh

theorem growing_bind {x : EvalM α} {f : α → EvalM β} (hx : Growing P x)
    (hf : ∀ a, P a → Growing Q (f a)) : Growing Q (x >>= f) where
  value {m m'' b} h := by
    obtain ⟨a, m', hr, h⟩ := bind_eq_ok.mp h
    exact (hf a (hx.value hr)).value h
  keeps := keeps_bind_of_value hx.keeps fun _ a _ hr => (hf a (hx.value hr)).keeps

theorem growing_look {g : Machine → β} {f : β → EvalM α} (hf : ∀ b, Growing P (f b)) :
    Growing P (do f (g (← get))) :=
  growing_bind (P := fun _ => True) ⟨fun _ => trivial, keeps_get⟩ fun m _ => hf (g m)

end EvalM

namespace Eval

open EvalM Machine

theorem respected_growing (opts : Options) :
    Respected opts opts (fun _ => True) (fun _ => True) (fun _ => True)
      fun P x _ => Growing P x where
  toClosedValues := closedValues_true
  pure := growing_pure
  bind := growing_bind
  fail _ _ _ := growing_throw (by simp)
  outOfFuel := growing_throw (by simp)
  assign _ _ := ⟨fun _ => trivial, keeps_modify _ fun m => grows_assign m _ _⟩
  reference {name prov} _ := by
    rw [reference_eq]
    refine growing_look (g := fun m => m.env.lookup? name) (f := answer name prov) fun found => ?_
    cases found with
    | some value => exact growing_pure trivial
    | none => exact growing_throw (by simp)
  capture _ _ x xprov _ _ := growing_look (g := fun m => m.env.current)
    (f := fun b => pure (Expr.function x xprov _ (if opts.captures then some b else none) _))
    fun _ => growing_pure trivial
  macroCall {e} _ := growing_look (g := fun m => Call.ofMacro? m.env e) (f := pure)
    fun _ => growing_pure fun _ _ => trivial
  called _ := trivial
  counted _ := ⟨fun _ => trivial, keeps_modify _ fun _ => Restores.toGrows ⟨⟨rfl, rfl⟩, rfl⟩⟩
  call _ hev := ⟨fun _ => trivial, (Call.run_restores
    (fun e => (hev e trivial).keeps.mono Grows.toExtends) _).mono Restores.toGrows⟩
  nested _ h := ⟨fun _ => trivial, grows_nested opts _ h.keeps⟩

theorem exists_assigned (opts : Options) (fuel : Nat) (e : Expr) (m : Machine) :
    ∃ defs, ((eval opts fuel e).after m).env = m.env.assignAll defs :=
  (((respected_growing opts).eval fuel trivial).keeps m).1.assigned

end Eval

end SmallLisp
