import SmallLisp.Proofs.Eval.Respected
import SmallLisp.Proofs.Expr.Located

namespace SmallLisp

variable {known : Site → Prop} {α β : Type} {P : α → Prop} {Q : β → Prop}

def Halt.Located (known : Site → Prop) : Halt → Prop
  | .error e => ∃ subject, e.subject = some subject ∧ subject.Located known
  | _ => True

namespace EvalM

/-- From traced bindings a computation leads to traced bindings, and to a value that has a property or
to an error that can be located. -/
structure Locates (known : Site → Prop) (P : α → Prop) (x : EvalM α) : Prop where
  value {m m' : Machine} {a : α} :
    x m = .ok a m' → m.env.Traced known → P a ∧ m'.env.Traced known
  failure {m m' : Machine} {halt : Halt} :
    x m = .error halt m' → m.env.Traced known → halt.Located known ∧ m'.env.Traced known

theorem locates_pure {a : α} (ha : P a) : Locates known P (pure a) where
  value h hm := by
    cases h
    exact ⟨ha, hm⟩
  failure h := nomatch h

theorem locates_throw {halt : Halt} (hh : halt.Located known) : Locates known P (throw halt) where
  value h := nomatch h
  failure h hm := by
    cases h
    exact ⟨hh, hm⟩

theorem locates_fail (cause : EvalError.Cause) {subject : Expr} (hs : subject.Located known) :
    Locates known P (fail cause subject) :=
  locates_throw ⟨subject, rfl, hs⟩

theorem locates_get : Locates known (fun m => m.env.Traced known) get where
  value h hm := by
    cases h
    exact ⟨hm, hm⟩
  failure h := nomatch h

theorem locates_modify {f : Machine → Machine}
    (hf : ∀ m, m.env.Traced known → (f m).env.Traced known) :
    Locates known (fun _ => True) (modify f) where
  value {m m' a} h hm := by
    cases h
    exact ⟨trivial, hf m hm⟩
  failure h := nomatch h

theorem locates_bind {x : EvalM α} {f : α → EvalM β} (hx : Locates known P x)
    (hf : ∀ a, P a → Locates known Q (f a)) : Locates known Q (x >>= f) where
  value {m m'' b} h hm := by
    obtain ⟨a, m', hr, h⟩ := bind_eq_ok.mp h
    obtain ⟨ha, hm'⟩ := hx.value hr hm
    exact (hf a ha).value h hm'
  failure {m m'' halt} h hm := by
    simp only [bind, EStateM.bind] at h
    cases hr : x m with
    | error halt' m' =>
        rw [hr] at h
        cases h
        exact hx.failure hr hm
    | ok a m' =>
        rw [hr] at h
        obtain ⟨ha, hm'⟩ := hx.value hr hm
        exact (hf a ha).failure h hm'

variable {R : Expr → Prop} {x : EvalM Expr}

theorem locates_inCheckpoint (hx : Locates known R x) : Locates known R (inCheckpoint x) where
  value {m m'' a} h hm := by
    simp only [inCheckpoint] at h
    cases hr : x { m with env := m.env.enter } with
    | error halt m' =>
        simp only [hr] at h
        split at h <;> cases h
    | ok a' m' =>
        obtain ⟨ha, hm'⟩ := hx.value hr hm.enter
        simp only [hr] at h
        split at h
        · next env henv =>
            cases h
            exact ⟨ha, hm'.leave henv⟩
        · cases h
  failure {m m'' halt} h hm := by
    simp only [inCheckpoint] at h
    cases hr : x { m with env := m.env.enter } with
    | error halt' m' =>
        obtain ⟨hh, hm'⟩ := hx.failure hr hm.enter
        simp only [hr] at h
        split at h
        · next env henv =>
            cases h
            exact ⟨hh, hm'.leave henv⟩
        · cases h
          exact ⟨hh, hm'⟩
    | ok a m' =>
        obtain ⟨_, hm'⟩ := hx.value hr hm.enter
        simp only [hr] at h
        split at h
        · cases h
        · cases h
          exact ⟨trivial, hm'⟩

theorem locates_nested (opts : Options) {e : Expr} (he : e.Located known) (hx : Locates known R x) :
    Locates known R (nested opts e x) where
  value {m m'' a} h hm := by
    simp only [nested] at h
    split at h
    · cases h
    · split at h
      · next hr =>
          cases h
          obtain ⟨ha, hm'⟩ := hx.value hr hm
          exact ⟨ha, hm'⟩
      · cases h
  failure {m m'' halt} h hm := by
    simp only [nested] at h
    split at h
    · cases h
      exact ⟨⟨e, rfl, he⟩, hm⟩
    · split at h
      · cases h
      · next hr =>
          cases h
          obtain ⟨hh, hm'⟩ := hx.failure hr hm
          exact ⟨hh, hm'⟩

end EvalM

structure Call.Located (known : Site → Prop) (c : Call) : Prop where
  body : c.body.Located known
  env : ∀ b ∈ c.env, b.Traced known
  arg : c.arg.Traced known

namespace Call

theorem Located.extend {c : Call} (h : c.Located known) {env : Env} (henv : env.Traced known) :
    (c.extend env).Traced known := by
  unfold Call.extend
  split
  · next bindings hb => exact (henv.install (h.env bindings hb)).assign c.param h.arg
  · exact henv.assign c.param h.arg

theorem located_ofMacro? {env : Env} (henv : env.Traced known) {e : Expr} (he : e.Located known)
    {c : Call} (hc : ofMacro? env e = some c) : c.Located known := by
  have hcall {x : String} {xp p q : Provenance} {body : Expr} {captured : Option Bindings}
      {operands : List Expr} (hm : (Expr.expander x xp body captured q).Traced known)
      (hp : p ≠ []) (hsites : ∀ s ∈ p, known s) (hops : ∀ x ∈ operands, x.Located known) :
      Call.Located known ⟨x, body, captured, .list operands p⟩ := by
    cases hm with
    | expander _ hplaced hbody hcaptured =>
        exact ⟨⟨hplaced, hbody⟩, hcaptured, (Expr.located_list hp hsites hops).traced⟩
  unfold ofMacro? at hc
  split at hc
  · cases hc
    obtain ⟨hhead, hops⟩ := List.forall_mem_cons.mp he.items
    exact hcall hhead.traced he.placed he.traced.sites hops
  · split at hc
    · next hlookup =>
        cases hc
        obtain ⟨_, hops⟩ := List.forall_mem_cons.mp he.items
        have hm := henv.current _ (Bindings.mem_of_get? hlookup)
        exact hcall hm he.placed he.traced.sites hops
    · cases hc
  · cases hc

end Call

namespace Eval

open EvalM

theorem locates_run {ev : Evaluator} {c : Call} (hc : c.Located known)
    (hev : Locates known (Expr.Located known) (ev c.body)) :
    Locates known (Expr.Located known) (c.run ev) := by
  refine locates_bind (locates_modify fun _ hm => hm) fun _ _ => ?_
  apply locates_inCheckpoint
  exact locates_bind (locates_modify fun _ hm => hc.extend hm) fun _ _ => hev

theorem locates_reference {name : String} {p : Provenance}
    (h : (Expr.symbol name p).Located known) :
    Locates known (Expr.Located known) (reference name p) := by
  refine locates_bind locates_get fun m hm => ?_
  cases hlookup : m.env.lookup? name with
  | none => exact locates_fail _ h
  | some value =>
      have hvalue := hm.current _ (Bindings.mem_of_get? hlookup)
      have hsites : ∀ s ∈ value.prov.via p, known s :=
        List.forall_mem_append.mpr ⟨hvalue.sites, h.traced.sites⟩
      refine locates_pure ⟨?_, hvalue.withProv hsites⟩
      rw [hvalue.prov_withProv]
      exact List.append_ne_nil_of_right_ne_nil _ h.placed

theorem locates_capture (opts : Options) (ev : Evaluator) {site body : Expr} (x : String)
    (xp : Provenance) (hsite : site.Located known) (hbody : body.Located known) :
    Locates known (Expr.Located known) (special opts ev site .lambda [.symbol x xp, body]) := by
  refine locates_bind locates_get fun m hm => ?_
  refine locates_pure ⟨hsite.placed, .function hsite.traced.sites hbody.placed hbody.traced ?_⟩
  intro b hb
  split at hb
  · cases hb
    exact hm.current
  · cases hb

theorem respected_locates (opts : Options) :
    Respected opts opts (Expr.Located known) (Call.Located known) (Call.Located known)
      fun P x _ => Locates known P x where
  parts h := List.forall_mem_cons.mp h.items
  callable h harg := by
    cases h.traced with
    | function _ hplaced hbody henv => exact ⟨⟨hplaced, hbody⟩, henv, harg.traced⟩
  int _ h := ⟨h.placed, .int h.traced.sites⟩
  list h hvalues := Expr.located_list h.placed h.traced.sites hvalues
  map h hvalues := Expr.located_map h.placed h.traced.sites hvalues
  expander _ h hf := by
    cases hf.traced with
    | function _ hplaced hbody henv =>
        exact ⟨h.placed, .expander h.traced.sites hplaced hbody henv⟩
  pure := locates_pure
  bind := locates_bind
  fail cause _ h := locates_fail cause h
  outOfFuel := locates_throw trivial
  assign _ h := locates_modify fun _ hm => hm.assign _ h.traced
  reference := locates_reference
  capture ev _ x xp := locates_capture opts ev x xp
  macroCall he := locates_bind locates_get fun _ hm =>
    locates_pure fun _ hc => Call.located_ofMacro? hm he hc
  called h := h
  counted _ := locates_modify fun _ hm => hm
  call hc hev := locates_run hc (hev _ hc.body)
  nested he h := locates_nested opts he h

theorem locates_eval (opts : Options) (fuel : Nat) {e : Expr} (he : e.Located known) :
    Locates known (Expr.Located known) (eval opts fuel e) :=
  (respected_locates opts).eval fuel he

end Eval

end SmallLisp
