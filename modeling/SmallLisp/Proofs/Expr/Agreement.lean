import SmallLisp.Proofs.Expr.Equality

namespace SmallLisp

namespace Expr

/-- Maps have their keys apart, and there are captured bindings only if that is allowed. -/
inductive Agree (captures : Bool) : Expr → Expr → Prop
  | nil : Agree captures .nil .nil
  | int {v : Int64} {p q : Provenance} : Agree captures (.int v p) (.int v q)
  | symbol {n : String} {p q : Provenance} : Agree captures (.symbol n p) (.symbol n q)
  | list {xs ys : List Expr} {p q : Provenance} : xs.length = ys.length →
      (∀ z ∈ xs.zip ys, Agree captures z.1 z.2) → Agree captures (.list xs p) (.list ys q)
  | map {es fs' fs : Entries} {p q : Provenance} : es.Distinct → es.length = fs'.length →
      (∀ z ∈ es.zip fs', Agree captures z.1.1 z.2.1) →
      (∀ z ∈ es.zip fs', Agree captures z.1.2 z.2.2) → fs'.Perm fs →
      Agree captures (.map es p) (.map fs q)
  | function {x : String} {b c : Expr} {env env' : Option Bindings} {xp yp p q : Provenance} :
      Agree captures b c → env.isSome = env'.isSome →
      (∀ bs ∈ env, ∀ cs ∈ env', captures = true ∧ bs.map (·.1) = cs.map (·.1)) →
      (∀ bs ∈ env, ∀ cs ∈ env', ∀ z ∈ bs.zip cs, Agree captures z.1.2 z.2.2) →
      Agree captures (.function x xp b env p) (.function x yp c env' q)
  | expander {x : String} {b c : Expr} {env env' : Option Bindings} {xp yp p q : Provenance} :
      Agree captures b c → env.isSome = env'.isSome →
      (∀ bs ∈ env, ∀ cs ∈ env', captures = true ∧ bs.map (·.1) = cs.map (·.1)) →
      (∀ bs ∈ env, ∀ cs ∈ env', ∀ z ∈ bs.zip cs, Agree captures z.1.2 z.2.2) →
      Agree captures (.expander x xp b env p) (.expander x yp c env' q)
  | special {k : Special} {p q : Provenance} : Agree captures (.special k p) (.special k q)
  | primitive {o : Primitive} {p q : Provenance} : Agree captures (.primitive o p) (.primitive o q)

end Expr

variable {captures : Bool}

namespace Bindings

def Agree (captures : Bool) (bs cs : Bindings) : Prop :=
  List.Forall₂ (fun e f => e.1 = f.1 ∧ e.2.Agree captures f.2) bs cs

theorem agree_iff {bs cs : Bindings} : bs.Agree captures cs ↔
    bs.map (·.1) = cs.map (·.1) ∧ ∀ z ∈ bs.zip cs, z.1.2.Agree captures z.2.2 := by
  induction bs generalizing cs with
  | nil => cases cs <;> simp [Agree]
  | cons e bs ih =>
      cases cs with
      | nil => simp [Agree]
      | cons f cs =>
          have hrest := @ih cs
          simp only [Agree] at hrest ⊢
          simp only [List.forall₂_cons, hrest, List.map_cons, List.cons.injEq, List.zip_cons_cons,
            List.forall_mem_cons]
          tauto

theorem Agree.get? {bs cs : Bindings} (h : bs.Agree captures cs) (name : String) :
    Option.Rel (Expr.Agree captures) (bs.get? name) (cs.get? name) := by
  induction h with
  | nil => exact .none
  | cons hef _ ih =>
      simp only [get?_cons, ← hef.1]
      split
      · exact .some hef.2
      · exact ih

theorem Agree.set {bs cs : Bindings} (h : bs.Agree captures cs) (name : String) {v w : Expr}
    (hvw : v.Agree captures w) : (bs.set name v).Agree captures (cs.set name w) := by
  induction h with
  | nil => exact .cons ⟨rfl, hvw⟩ .nil
  | cons hef hrest ih =>
      simp only [Bindings.set, ← hef.1]
      split
      · exact .cons ⟨rfl, hvw⟩ hrest
      · exact .cons hef ih

def CapturedAgree (captures : Bool) (env env' : Option Bindings) : Prop :=
  env.isSome = env'.isSome ∧ ∀ bs ∈ env, ∀ cs ∈ env', captures = true ∧ bs.Agree captures cs

theorem capturedAgree_iff {env env' : Option Bindings} : CapturedAgree captures env env' ↔
    env.isSome = env'.isSome ∧
      (∀ bs ∈ env, ∀ cs ∈ env', captures = true ∧ bs.map (·.1) = cs.map (·.1)) ∧
      ∀ bs ∈ env, ∀ cs ∈ env', ∀ z ∈ bs.zip cs, z.1.2.Agree captures z.2.2 := by
  refine and_congr_right fun _ => ?_
  simp only [agree_iff]
  constructor
  · intro h
    refine ⟨fun bs hbs cs hcs => ?_, fun bs hbs cs hcs => (h bs hbs cs hcs).2.2⟩
    exact ⟨(h bs hbs cs hcs).1, (h bs hbs cs hcs).2.1⟩
  · rintro ⟨hnames, hvalues⟩ bs hbs cs hcs
    obtain ⟨hcaptures, hnames⟩ := hnames bs hbs cs hcs
    exact ⟨hcaptures, hnames, hvalues bs hbs cs hcs⟩

theorem CapturedAgree.eq_none {env env' : Option Bindings} (h : CapturedAgree false env env') :
    env = none := by
  cases env with
  | none => rfl
  | some bs =>
      obtain ⟨cs, hcs⟩ := Option.isSome_iff_exists.mp h.1.symm
      exact absurd (h.2 bs rfl cs hcs).1 Bool.false_ne_true

end Bindings

namespace Expr

def AgreeEntry (captures : Bool) (e f : Expr × Expr) : Prop :=
  e.1.Agree captures f.1 ∧ e.2.Agree captures f.2

end Expr

structure Entries.Agree (captures : Bool) (es fs : Entries) : Prop where
  distinct : es.Distinct
  matched : ∃ fs', List.Forall₂ (Expr.AgreeEntry captures) es fs' ∧ fs'.Perm fs

namespace Expr

theorem agree_list_iff {xs ys : List Expr} {p q : Provenance} :
    (Expr.list xs p).Agree captures (.list ys q) ↔ List.Forall₂ (Agree captures) xs ys := by
  rw [forall₂_iff_mem_zip]
  constructor
  · intro h
    cases h with
    | list hlen h => exact ⟨hlen, h⟩
  · rintro ⟨hlen, h⟩
    exact .list hlen h

theorem agree_map_iff {es fs : Entries} {p q : Provenance} :
    (Expr.map es p).Agree captures (.map fs q) ↔ es.Agree captures fs := by
  constructor
  · intro h
    cases h with
    | map hdistinct hlen hkeys hvalues hperm =>
        exact ⟨hdistinct, _,
          forall₂_iff_mem_zip.mpr ⟨hlen, fun z hz => ⟨hkeys z hz, hvalues z hz⟩⟩, hperm⟩
  · rintro ⟨hdistinct, fs', h, hperm⟩
    obtain ⟨hlen, h⟩ := forall₂_iff_mem_zip.mp h
    exact .map hdistinct hlen (fun z hz => (h z hz).1) (fun z hz => (h z hz).2) hperm

theorem agree_function_iff {x : String} {b g : Expr} {env : Option Bindings} {xp p : Provenance} :
    (Expr.function x xp b env p).Agree captures g ↔ ∃ yp c env' q, g = .function x yp c env' q ∧
      b.Agree captures c ∧ Bindings.CapturedAgree captures env env' := by
  constructor
  · intro h
    cases h with
    | function hbody hsome hnames hvalues =>
        exact ⟨_, _, _, _, rfl, hbody, Bindings.capturedAgree_iff.mpr ⟨hsome, hnames, hvalues⟩⟩
  · rintro ⟨yp, c, env', q, rfl, hbody, henv⟩
    obtain ⟨hsome, hnames, hvalues⟩ := Bindings.capturedAgree_iff.mp henv
    exact .function hbody hsome hnames hvalues

theorem agree_expander_iff {x : String} {b g : Expr} {env : Option Bindings} {xp p : Provenance} :
    (Expr.expander x xp b env p).Agree captures g ↔ ∃ yp c env' q, g = .expander x yp c env' q ∧
      b.Agree captures c ∧ Bindings.CapturedAgree captures env env' := by
  constructor
  · intro h
    cases h with
    | expander hbody hsome hnames hvalues =>
        exact ⟨_, _, _, _, rfl, hbody, Bindings.capturedAgree_iff.mpr ⟨hsome, hnames, hvalues⟩⟩
  · rintro ⟨yp, c, env', q, rfl, hbody, henv⟩
    obtain ⟨hsome, hnames, hvalues⟩ := Bindings.capturedAgree_iff.mp henv
    exact .expander hbody hsome hnames hvalues

theorem Agree.same {a b : Expr} (h : a.Agree captures b) : a.Same b := by
  induction h with
  | nil => exact .nil
  | int => exact .int
  | symbol => exact .symbol
  | special => exact .special
  | primitive => exact .primitive
  | list hlen _ ih => exact .list hlen ih
  | map _ hlen _ _ hperm ihkeys ihvalues => exact .map hlen ihkeys ihvalues hperm
  | function _ _ _ _ ih _ => exact .function ih
  | expander _ _ _ _ ih _ => exact .expander ih

theorem Agree.keyed {a b : Expr} (h : a.Agree captures b) : a.Keyed := by
  have hleft {α : Type} {P : α → Prop} {xs ys : List α} (hlen : xs.length = ys.length)
      (h : ∀ z ∈ xs.zip ys, P z.1) : ∀ x ∈ xs, P x := by
    rw [← List.map_fst_zip (Nat.le_of_eq hlen)]
    simpa using h
  induction h with
  | nil => exact .nil
  | int => exact .int
  | symbol => exact .symbol
  | special => exact .special
  | primitive => exact .primitive
  | list hlen _ ih => exact .list (hleft hlen ih)
  | map hdistinct hlen _ _ _ ihkeys ihvalues =>
      exact .map hdistinct (hleft (P := fun e => e.1.Keyed) hlen ihkeys)
        (hleft (P := fun e => e.2.Keyed) hlen ihvalues)
  | function _ _ _ _ ih _ => exact .function ih
  | expander _ _ _ _ ih _ => exact .expander ih

theorem Agree.keyed_right {a b : Expr} (h : a.Agree captures b) : b.Keyed :=
  h.keyed.of_same h.same

theorem Agree.equal {a b : Expr} (h : a.Agree captures b) : a.equal b = true :=
  (equal_iff_same h.keyed h.keyed_right).mpr h.same

theorem Agree.withProv {a b : Expr} (h : a.Agree captures b) (p q : Provenance) :
    (a.withProv p).Agree captures (b.withProv q) := by
  cases h with
  | nil => exact .nil
  | int => exact .int
  | symbol => exact .symbol
  | special => exact .special
  | primitive => exact .primitive
  | list hlen h => exact .list hlen h
  | map hdistinct hlen hkeys hvalues hperm => exact .map hdistinct hlen hkeys hvalues hperm
  | function hbody hsome hnames hvalues => exact .function hbody hsome hnames hvalues
  | expander hbody hsome hnames hvalues => exact .expander hbody hsome hnames hvalues

theorem equal_eq_of_agree {a b c d : Expr} (hac : a.Agree captures c) (hbd : b.Agree captures d) :
    a.equal b = c.equal d := by
  rw [Bool.eq_iff_iff, equal_iff_same hac.keyed hbd.keyed,
    equal_iff_same hac.keyed_right hbd.keyed_right]
  constructor
  · intro h
    exact hac.same.symm.trans (h.trans hbd.same)
  · intro h
    exact hac.same.trans (h.trans hbd.same.symm)

end Expr

namespace Entries

theorem Agree.keyed {es fs : Entries} (h : es.Agree captures fs) : es.Keyed ∧ fs.Keyed := by
  have hmap : (Expr.map es []).Agree captures (.map fs []) := Expr.agree_map_iff.mpr h
  cases hmap.keyed with
  | map hdes hkes hves =>
      cases hmap.keyed_right with
      | map hdfs hkfs hvfs => exact ⟨⟨hdes, hkes, hves⟩, hdfs, hkfs, hvfs⟩

theorem Agree.self {es : Entries} (h : es.Agree captures es) {e : Expr × Expr} (he : e ∈ es) :
    Expr.AgreeEntry captures e e := by
  obtain ⟨fs, hagree, hperm⟩ := h.matched
  obtain ⟨f, hf, hef⟩ := exists_mem_of_forall₂ (R := fun f e => Expr.AgreeEntry captures e f)
    hagree.flip he
  obtain rfl := h.distinct.eq_of_same he (hperm.mem_iff.mp hf) hef.1.same
  exact hef

theorem Agree.set {es fs : Entries} (h : es.Agree captures fs) {k l v w : Expr}
    (hkl : k.Agree captures l) (hvw : v.Agree captures w) :
    (es.set k v).Agree captures (fs.set l w) := by
  obtain ⟨hes, hfs⟩ := h.keyed
  obtain ⟨fs', hmatched, hperm⟩ := h.matched
  have hothers : List.Forall₂ (Expr.AgreeEntry captures) (es.filter fun e => !e.1.equal k)
      (fs'.filter fun f => !f.1.equal l) := by
    refine List.rel_filter ?_ hmatched
    intro e f hef
    simp [Expr.equal_eq_of_agree hef.1 hkl]
  obtain ⟨gs, hgs, hgsperm⟩ := List.perm_comp_forall₂ (hes.set_perm hkl.keyed v)
    (.cons (a := (k, v)) (b := (l, w)) ⟨hkl, hvw⟩ hothers)
  refine ⟨(hes.set hkl.keyed hvw.keyed).distinct, gs, hgs, hgsperm.trans ?_⟩
  exact ((hperm.filter _).cons (l, w)).trans (hfs.set_perm hkl.keyed_right w).symm

theorem Agree.setAll {es fs : Entries} (h : es.Agree captures fs) {vs ws : List Expr}
    (hvs : List.Forall₂ (Expr.Agree captures) vs ws) :
    (es.setAll vs).Agree captures (fs.setAll ws) := by
  fun_induction Entries.setAll es vs generalizing fs ws with
  | case1 es k v vs ih =>
      cases hvs with
      | cons hkl hvs =>
          cases hvs with
          | cons hvw hvs => exact ih (h.set hkl hvw) hvs
  | case2 es vs hshort =>
      cases hvs with
      | nil => exact h
      | cons hkl hvs =>
          cases hvs with
          | nil => exact h
          | cons hvw hvs => exact absurd rfl (hshort _ _ _)

end Entries

namespace Expr

theorem Built.agree {a : Expr} (h : a.Built captures) : a.Agree captures a := by
  have hcaptured {env : Option Bindings} (hallowed : env.isSome → captures)
      (henv : ∀ bs ∈ env, ∀ e ∈ bs, e.2.Agree captures e.2) :
      Bindings.CapturedAgree captures env env := by
    refine ⟨rfl, ?_⟩
    intro bs hbs cs hcs
    obtain rfl := Option.mem_unique hbs hcs
    exact ⟨hallowed (Option.isSome_of_mem hbs),
      List.forall₂_same.mpr fun e he => ⟨rfl, henv bs hbs e he⟩⟩
  induction h with
  | nil => exact .nil
  | int => exact .int
  | symbol => exact .symbol
  | special => exact .special
  | primitive => exact .primitive
  | list _ ih => exact agree_list_iff.mpr (List.forall₂_same.mpr ih)
  | map hparts ih =>
      have hdistinct := (Entries.keyed_changed fun c hc x hx => (hparts c hc x hx).keyed).distinct
      exact agree_map_iff.mpr
        ⟨hdistinct, _, List.forall₂_same.mpr (Entries.forall_changed ih), .refl _⟩
  | function _ hallowed _ ih ihenv =>
      exact agree_function_iff.mpr ⟨_, _, _, _, rfl, ih, hcaptured hallowed ihenv⟩
  | expander _ hallowed _ ih ihenv =>
      exact agree_expander_iff.mpr ⟨_, _, _, _, rfl, ih, hcaptured hallowed ihenv⟩

theorem Same.agree {a b : Expr} (h : a.Same b) (ha : a.Agree false a) (hb : b.Agree false b) :
    a.Agree false b := by
  induction h with
  | nil => exact .nil
  | int => exact .int
  | symbol => exact .symbol
  | special => exact .special
  | primitive => exact .primitive
  | list hlen _ ih =>
      have hxs := List.forall₂_same.mp (agree_list_iff.mp ha)
      have hys := List.forall₂_same.mp (agree_list_iff.mp hb)
      refine .list hlen fun z hz => ?_
      obtain ⟨hx, hy⟩ := List.of_mem_zip hz
      exact ih z hz (hxs z.1 hx) (hys z.2 hy)
  | @map es fs' fs p q hlen _ _ hperm ihkeys ihvalues =>
      have hes := agree_map_iff.mp ha
      have hfs := agree_map_iff.mp hb
      have hself (z) (hz : z ∈ es.zip fs') : AgreeEntry false z.1 z.1 ∧ AgreeEntry false z.2 z.2 := by
        obtain ⟨he, hf⟩ := List.of_mem_zip hz
        exact ⟨hes.self he, hfs.self (hperm.mem_iff.mp hf)⟩
      exact .map hes.distinct hlen (fun z hz => ihkeys z hz (hself z hz).1.1 (hself z hz).2.1)
        (fun z hz => ihvalues z hz (hself z hz).1.2 (hself z hz).2.2) hperm
  | function _ ih =>
      obtain ⟨_, _, _, _, ⟨⟩, hbody, henv⟩ := agree_function_iff.mp ha
      obtain ⟨_, _, _, _, ⟨⟩, hbody', henv'⟩ := agree_function_iff.mp hb
      obtain rfl := henv.eq_none
      obtain rfl := henv'.eq_none
      exact agree_function_iff.mpr ⟨_, _, _, _, rfl, ih hbody hbody', henv⟩
  | expander _ ih =>
      obtain ⟨_, _, _, _, ⟨⟩, hbody, henv⟩ := agree_expander_iff.mp ha
      obtain ⟨_, _, _, _, ⟨⟩, hbody', henv'⟩ := agree_expander_iff.mp hb
      obtain rfl := henv.eq_none
      obtain rfl := henv'.eq_none
      exact agree_expander_iff.mpr ⟨_, _, _, _, rfl, ih hbody hbody', henv⟩

end Expr

end SmallLisp
