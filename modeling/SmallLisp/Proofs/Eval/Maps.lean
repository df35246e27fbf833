import SmallLisp.Proofs.Eval.Agreement
import SmallLisp.Proofs.Expr.FiniteMap

namespace SmallLisp

namespace Eval

open EvalM

variable {ev : Evaluator}

theorem length_evalAll {operands values : List Expr} {m m' : Machine}
    (h : evalAll ev operands m = .ok values m') : values.length = operands.length := by
  induction operands generalizing values m with
  | nil =>
      cases h
      rfl
  | cons operand operands ih =>
      obtain ⟨value, m₁, _, h⟩ := bind_eq_ok.mp h
      obtain ⟨rest, m₂, hrest, h⟩ := bind_eq_ok.mp h
      cases h
      simp [ih hrest]

theorem keyed_of_evalAll {opts : Options} {fuel : Nat} {operands values : List Expr} {m m' : Machine}
    (hm : ∀ b ∈ m.env.current, b.2.Built true) (hoperands : ∀ x ∈ operands, x.Built true)
    (h : evalAll (eval opts fuel) operands m = .ok values m') : ∀ x ∈ values, x.Keyed := by
  have hagree : m.Agree true m :=
    ⟨List.forall₂_same.mpr fun b hb => ⟨rfl, (hm b hb).agree⟩, rfl⟩
  have hself : List.Forall₂ (Expr.Agree true) operands operands :=
    List.forall₂_same.mpr fun x hx => (hoperands x hx).agree
  obtain ⟨values', m'', h', hvalues, _⟩ :=
    follows_evalAll (respects_eval (fun _ => rfl) fuel) hself hagree h
  obtain ⟨rfl, rfl⟩ : values = values' ∧ m' = m'' := by
    rw [h] at h'
    cases h'
    exact ⟨rfl, rfl⟩
  exact fun x hx => (List.forall₂_same.mp hvalues x hx).keyed

theorem primitive_map_of_evalAll {site : Expr} {operands values : List Expr} {m m' : Machine}
    (heven : operands.length % 2 = 0) (h : evalAll ev operands m = .ok values m') :
    primitive ev site .map operands m = .ok (.map (Entries.setAll [] values) site.prov) m' := by
  simp only [primitive, if_pos heven]
  exact bind_eq_ok.mpr ⟨values, m', h, rfl⟩

end Eval

namespace Entries

/-- Every map that comes about by changes is the finite map of the changes that lead to it, and stays that
whatever is made of it; and the operation that builds a map of operands gives each key its last value. -/
theorem maps_are_finite (nameHash : String → UInt32) {history : List (Nat × Change)}
    (hbuilt : ∀ step ∈ history, step.2.Built true) :
    (∀ (version : Nat) (es : Entries), (versions history)[version]? = some es → ∃ changes,
      (lineages history)[version]? = some changes ∧ FiniteMap nameHash changes es) ∧
    (∀ later, versions history <+: versions (history ++ later)) ∧
    ∀ (opts : Options) (fuel : Nat) (site : Expr) (operands values : List Expr) (m m' : Machine),
      (∀ b ∈ m.env.current, b.2.Built true) → (∀ x ∈ operands, x.Built true) →
      operands.length % 2 = 0 → Eval.evalAll (Eval.eval opts fuel) operands m = .ok values m' →
      (pairs values).flatMap (fun p => [p.1, p.2]) = values ∧ ∃ es,
        Eval.primitive (Eval.eval opts fuel) site .map operands m = .ok (.map es site.prov) m' ∧
        FiniteMap nameHash ((pairs values).map fun p => .set p.1 p.2) es := by
  refine ⟨fun version es hes => ?_, versions_prefix history, ?_⟩
  · rw [versions_eq_map, List.getElem?_map, Option.map_eq_some_iff] at hes
    obtain ⟨changes, hchanges, rfl⟩ := hes
    refine ⟨changes, hchanges, finiteMap_changed nameHash fun c hc => ?_⟩
    obtain ⟨step, hstep, rfl⟩ := mem_of_mem_lineages (List.mem_of_getElem? hchanges) c hc
    exact (hbuilt step hstep).keyed
  · intro opts fuel site operands values m m' hm hoperands heven h
    have hpairs := flatMap_pairs ((Eval.length_evalAll h).symm ▸ heven)
    have hkeyed := Eval.keyed_of_evalAll hm hoperands h
    refine ⟨hpairs, _, Eval.primitive_map_of_evalAll heven h, ?_⟩
    rw [setAll_eq_foldl]
    refine finiteMap_changed nameHash fun c hc => ?_
    obtain ⟨p, hp, rfl⟩ := List.mem_map.mp hc
    have hmem : p.1 ∈ values ∧ p.2 ∈ values := by
      rw [← hpairs]
      exact ⟨List.mem_flatMap.mpr ⟨p, hp, by simp⟩, List.mem_flatMap.mpr ⟨p, hp, by simp⟩⟩
    refine ⟨hkeyed _ hmem.1, ?_⟩
    simpa [Change.parts] using And.intro (hkeyed _ hmem.1) (hkeyed _ hmem.2)

theorem maps_are_finite_of_equal_keys :
    let there : Provenance := [⟨some ⟨.start, ⟨4, 0, 4⟩⟩, none⟩]
    let key (p : Provenance) := Expr.map (changed [.set (.symbol "k" p) (.int 1 p)]) p
    let history : List (Nat × Change) := [(0, .set (key []) (.int 1 [])),
      (1, .set (key there) (.int 2 there)), (2, .erase (key []))]
    let operands : List Expr := [.int 1 [], .int 2 [], .int 1 there, .int 3 []]
    (∀ step ∈ history, step.2.Built true) ∧
      (∃ es, (versions history)[2]? = some es ∧ es.get? (key []) = some (.int 2 there)) ∧
      ∃ es m', Eval.primitive (Eval.eval .default 1) .nil .map operands (.ofEnv .empty) =
        .ok (.map es []) m' ∧ get? es (.int 1 []) = some (.int 3 []) := by
  intro there key history operands
  have hkey (p : Provenance) : (key p).Built true :=
    .map (by simp [Change.parts, Expr.Built.symbol, Expr.Built.int])
  have hbuilt : ∀ step ∈ history, step.2.Built true := by
    simp [history, Change.Built, Change.key, Change.parts, hkey, Expr.Built.int]
  have hoperands : ∀ x ∈ operands, x.Built true := by
    simp [operands, Expr.Built.int]
  obtain ⟨hversions, _, hmap⟩ := maps_are_finite (fun _ => 0) hbuilt
  have hversion : (versions history)[2]? =
      some (changed [.set (key []) (.int 1 []), .set (key there) (.int 2 there)]) := by
    rw [versions_eq_map]
    rfl
  obtain ⟨changes, hchanges, hfinite⟩ := hversions 2 _ hversion
  obtain rfl : [.set (key []) (.int 1 []), .set (key there) (.int 2 there)] = changes :=
    Option.some.inj hchanges
  have heval : Eval.evalAll (Eval.eval .default 1) operands (.ofEnv .empty) =
      .ok operands ⟨.empty, ⟨0, 0, 1⟩, 0⟩ := rfl
  obtain ⟨_, es, hes, hfound⟩ := hmap .default 1 .nil operands operands (.ofEnv .empty) _
    (by simp [Machine.ofEnv, Env.empty]) hoperands (by simp [operands]) heval
  refine ⟨hbuilt, ⟨_, hversion, ?_⟩, es, _, hes, ?_⟩
  · exact (hfinite.found (hkey []).keyed _).mpr ⟨[_], key there, [], rfl, by decide, by simp⟩
  · exact (hfound.found .int _).mpr ⟨[_], .int 1 there, [], rfl, by decide, by simp⟩

end Entries

end SmallLisp
