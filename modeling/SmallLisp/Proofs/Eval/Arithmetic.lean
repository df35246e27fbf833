import SmallLisp.Proofs.Eval.Currying
import Mathlib.Algebra.BigOperators.Group.List.Basic
import Mathlib.Data.Int.ModEq

namespace SmallLisp

inductive Primitive.Combines : Primitive → List Int → Int → Prop
  | sum (zs : List Int) : Combines .add zs zs.sum
  | product (zs : List Int) : Combines .mul zs zs.prod
  | negation (z : Int) : Combines .sub [z] (-z)
  | difference (z y : Int) (zs : List Int) : Combines .sub (z :: y :: zs) (z - (y :: zs).sum)

def Primitive.fold? : Primitive → Option (List Int64 → Int64)
  | .add => some fun ns => ns.foldl (· + ·) 0
  | .mul => some fun ns => ns.foldl (· * ·) 1
  | .sub => some Eval.difference
  | _ => none

def Expr.IsNumber (e : Expr) (n : Int64) : Prop := ∃ p, e = .int n p

namespace Word

structure Represents (n : Int64) (z : Int) : Prop where
  congruent : n.toInt ≡ z [ZMOD 2 ^ 64]
  lower : -2 ^ 63 ≤ n.toInt
  upper : n.toInt < 2 ^ 63

theorem represents_of_modEq {n : Int64} {z : Int} (h : n.toInt ≡ z [ZMOD 2 ^ 64]) : Represents n z :=
  ⟨h, n.le_toInt, n.toInt_lt⟩

theorem bmod_modEq (z : Int) : z.bmod (2 ^ 64) ≡ z [ZMOD 2 ^ 64] := Int.bmod_emod

theorem toInt_add_modEq (a b : Int64) : (a + b).toInt ≡ a.toInt + b.toInt [ZMOD 2 ^ 64] :=
  Int64.toInt_add a b ▸ bmod_modEq _

theorem toInt_mul_modEq (a b : Int64) : (a * b).toInt ≡ a.toInt * b.toInt [ZMOD 2 ^ 64] :=
  Int64.toInt_mul a b ▸ bmod_modEq _

theorem toInt_sub_modEq (a b : Int64) : (a - b).toInt ≡ a.toInt - b.toInt [ZMOD 2 ^ 64] :=
  Int64.toInt_sub a b ▸ bmod_modEq _

/-- Reduced at each step or once at the end, a fold comes to the same word. -/
theorem toInt_foldl {f : Int64 → Int64 → Int64} {g : Int → Int → Int}
    (hf : ∀ a b, (f a b).toInt ≡ g a.toInt b.toInt [ZMOD 2 ^ 64])
    (hg : ∀ {x y : Int}, x ≡ y [ZMOD 2 ^ 64] → ∀ b, g x b ≡ g y b [ZMOD 2 ^ 64])
    {a : Int64} {z : Int} (ha : a.toInt ≡ z [ZMOD 2 ^ 64]) (ns : List Int64) :
    (ns.foldl f a).toInt ≡ (ns.map Int64.toInt).foldl g z [ZMOD 2 ^ 64] := by
  induction ns generalizing a z with
  | nil => exact ha
  | cons n ns ih => exact ih ((hf a n).trans (hg ha n.toInt))

theorem foldl_sub (zs : List Int) (z : Int) : zs.foldl (· - ·) z = z - zs.sum := by
  induction zs generalizing z with
  | nil => simp
  | cons y zs ih =>
      rw [List.foldl_cons, ih, List.sum_cons]
      omega

theorem represents_fold {op : Primitive} {fold : List Int64 → Int64} (hfold : op.fold? = some fold)
    {ns : List Int64} {z : Int} (h : op.Combines (ns.map Int64.toInt) z) : Represents (fold ns) z := by
  apply represents_of_modEq
  generalize hzs : ns.map Int64.toInt = zs at h
  cases h with
  | sum =>
      cases hfold
      rw [← hzs, List.sum_eq_foldl]
      exact toInt_foldl toInt_add_modEq (fun h b => h.add_right b) rfl ns
  | product =>
      cases hfold
      rw [← hzs, List.prod_eq_foldl]
      exact toInt_foldl toInt_mul_modEq (fun h b => h.mul_right b) rfl ns
  | negation z =>
      cases hfold
      obtain ⟨n, rfl, rfl⟩ := List.map_eq_singleton_iff.mp hzs
      exact Int64.toInt_neg n ▸ bmod_modEq _
  | difference z y zs =>
      cases hfold
      obtain ⟨n, _, rfl, rfl, hrest⟩ := List.map_eq_cons_iff.mp hzs
      obtain ⟨k, ks, rfl, rfl, rfl⟩ := List.map_eq_cons_iff.mp hrest
      rw [← foldl_sub]
      exact toInt_foldl toInt_sub_modEq (fun h b => h.sub_right b) rfl (k :: ks)

end Word

namespace Eval

open EvalM

variable {opts : Options} {ev : Evaluator}

inductive Evaluates (opts : Options) : List Expr → Machine → List Expr → Machine → Prop
  | nil {m : Machine} : Evaluates opts [] m [] m
  | cons {e value : Expr} {es values : List Expr} {m m₁ m' : Machine} :
      Returns opts e m (.ok value m₁) → Evaluates opts es m₁ values m' →
      Evaluates opts (e :: es) m (value :: values) m'

theorem returns_of_eq_error (fuel : Nat) {e : Expr} {halt : Halt} {m m' : Machine}
    (hhalt : halt ≠ .outOfFuel) (h : eval opts fuel e m = .error halt m') :
    Returns opts e m (.error halt m') :=
  ⟨fuel, by simpa [Ends, halt?, h] using hhalt, h⟩

theorem Returns.from_fuel {e : Expr} {m : Machine} {r : EStateM.Result Halt Machine Expr}
    (h : Returns opts e m r) : ∃ least, ∀ fuel, least ≤ fuel → eval opts fuel e m = r := by
  obtain ⟨least, hends, rfl⟩ := h
  exact ⟨least, fun _ hle => eval_of_le hle hends⟩

def endState : EStateM.Result Halt Machine Expr → Machine
  | .ok _ m => m
  | .error _ m => m

def atDepth (depth : Nat) : EStateM.Result Halt Machine Expr → EStateM.Result Halt Machine Expr
  | .ok value m => .ok value { m with depth := depth }
  | .error halt m => .error halt { m with depth := depth }

theorem Returns.depth {e : Expr} {m : Machine} {r : EStateM.Result Halt Machine Expr}
    (h : Returns opts e m r) : (endState r).depth = m.depth := by
  obtain ⟨fuel, _, rfl⟩ := h
  have hbalanced := ((eval_extends opts fuel e) m).1.depth
  simp only [after] at hbalanced
  cases heval : eval opts fuel e m <;> simpa only [heval, endState] using hbalanced

theorem Returns.not_outOfFuel {e : Expr} {m : Machine} {r : EStateM.Result Halt Machine Expr}
    (h : Returns opts e m r) (m' : Machine) : r ≠ .error .outOfFuel m' := by
  rintro rfl
  obtain ⟨fuel, hends, heval⟩ := h
  simp [Ends, halt?, heval] at hends

theorem Evaluates.depth {es values : List Expr} {m m' : Machine} (h : Evaluates opts es m values m') :
    m'.depth = m.depth := by
  induction h with
  | nil => rfl
  | cons hvalue _ ih => exact ih.trans hvalue.depth

theorem Evaluates.evalAll_append {es values : List Expr} {m m' : Machine}
    (h : Evaluates opts es m values m') (rest : List Expr) : ∃ least, ∀ fuel, least ≤ fuel →
      evalAll (eval opts fuel) (es ++ rest) m =
        (do return values ++ (← evalAll (eval opts fuel) rest)) m' := by
  induction h with
  | nil => exact ⟨0, fun fuel _ => by simp⟩
  | @cons e value es values m m₁ m' hvalue _ ih =>
      obtain ⟨least, hfirst⟩ := hvalue.from_fuel
      obtain ⟨least', hrest⟩ := ih
      refine ⟨max least least', fun fuel hfuel => ?_⟩
      have he := hfirst fuel (by omega)
      have hes := hrest fuel (by omega)
      simp only [List.cons_append, evalAll, bind, EStateM.bind, he, hes]
      cases evalAll (eval opts fuel) rest m' <;> rfl

theorem Evaluates.evalAll {es values : List Expr} {m m' : Machine} (h : Evaluates opts es m values m') :
    ∃ least, ∀ fuel, least ≤ fuel → evalAll (eval opts fuel) es m = .ok values m' := by
  obtain ⟨least, hall⟩ := h.evalAll_append []
  refine ⟨least, fun fuel hfuel => ?_⟩
  have heval := hall fuel hfuel
  rw [List.append_nil] at heval
  rw [heval]
  exact congrArg (EStateM.Result.ok · m') (List.append_nil values)

theorem Evaluates.evalAll_of_failure {es values : List Expr} {e : Expr} {halt : Halt}
    {m m' m'' : Machine} (h : Evaluates opts es m values m') (he : Returns opts e m' (.error halt m''))
    (rest : List Expr) : ∃ least, ∀ fuel, least ≤ fuel →
      Eval.evalAll (eval opts fuel) (es ++ e :: rest) m = .error halt m'' := by
  obtain ⟨least, hall⟩ := h.evalAll_append (e :: rest)
  obtain ⟨least', hfail⟩ := he.from_fuel
  refine ⟨max least least', fun fuel hfuel => ?_⟩
  rw [hall fuel (by omega)]
  simp only [Eval.evalAll, bind, EStateM.bind, hfail fuel (by omega)]

theorem numbers_of_forall₂ {values : List Expr} {ns : List Int64}
    (h : List.Forall₂ Expr.IsNumber values ns) (m : Machine) : numbers values m = .ok ns m := by
  induction h with
  | nil => rfl
  | cons hn _ ih =>
      obtain ⟨p, rfl⟩ := hn
      simp only [numbers, bind, EStateM.bind, ih]
      rfl

theorem numbers_of_other {before : List Expr} {ns : List Int64} {value : Expr}
    (hbefore : List.Forall₂ Expr.IsNumber before ns) (hvalue : ∀ n, ¬value.IsNumber n)
    (after : List Expr) (m : Machine) :
    numbers (before ++ value :: after) m = .error (.error ⟨.wrongType "int", some value⟩) m := by
  induction hbefore with
  | nil =>
      cases value with
      | int n p => exact absurd ⟨p, rfl⟩ (hvalue n)
      | _ => rfl
  | cons hn _ ih =>
      obtain ⟨p, rfl⟩ := hn
      simp only [List.cons_append, numbers, bind, EStateM.bind, ih]

theorem primitive_of_fold? {op : Primitive} {fold : List Int64 → Int64} (hfold : op.fold? = some fold)
    (site : Expr) {operands : List Expr} (hops : op = .sub → operands ≠ []) :
    primitive ev site op operands =
      (do return .int (fold (← numbers (← evalAll ev operands))) site.prov) := by
  cases op with
  | add =>
      cases hfold
      rfl
  | mul =>
      cases hfold
      rfl
  | sub =>
      cases hfold
      cases operands with
      | nil => exact absurd rfl (hops rfl)
      | cons operand operands => rfl
  | _ => cases hfold

def operandState (m : Machine) : Machine :=
  { m with
    stats := { m.stats with depth := max m.stats.depth (m.depth + 2) }
    depth := m.depth + 1 }

variable {op : Primitive} {q : Provenance} {m : Machine}

theorem ofMacro?_of_name (hname : m.env.lookup? op.name = some (.primitive op q))
    (operands : List Expr) (hp p : Provenance) :
    Call.ofMacro? m.env (.list (.symbol op.name hp :: operands) p) = none := by
  simp only [Call.ofMacro?, hname]

theorem reference_name (hname : m.env.lookup? op.name = some (.primitive op q)) (hp : Provenance) :
    reference op.name hp m = .ok (.primitive op (q.via hp)) m := by
  rw [reference_eq]
  show answer op.name hp (m.env.lookup? op.name) m = _
  rw [hname]
  rfl

theorem eval_name (hname : m.env.lookup? op.name = some (.primitive op q)) (hp : Provenance)
    (hroom : ¬(opts.maxDepth ≠ 0 ∧ opts.maxDepth ≤ m.depth + 1)) (fuel : Nat) :
    eval opts (fuel + 1) (.symbol op.name hp) (deeper m) =
      .ok (.primitive op (q.via hp)) (operandState m) := by
  rw [eval_of_ofMacro?_eq_none rfl]
  refine nested_eq_ok.mpr ⟨hroom, deeper (deeper m), reference_name (m := deeper (deeper m)) hname hp, ?_⟩
  simp only [deeper, operandState, Nat.add_sub_cancel, Machine.mk.injEq, Stats.mk.injEq, true_and,
    and_true]
  omega

theorem comesTo_primitive (hname : m.env.lookup? op.name = some (.primitive op q))
    (hroom : ¬(opts.maxDepth ≠ 0 ∧ opts.maxDepth ≤ m.depth + 1)) (operands : List Expr)
    (hp p : Provenance) :
    let call := Expr.list (.symbol op.name hp :: operands) p
    ComesTo opts call m (fun fuel => primitive (eval opts fuel) call op operands) (operandState m) := by
  intro call
  have hnone := ofMacro?_of_name hname operands hp p
  refine ⟨1, fun fuel hfuel => ⟨_, eval_of_ofMacro?_eq_none hnone, ?_⟩⟩
  obtain ⟨fuel, rfl⟩ := Nat.exists_eq_succ_of_ne_zero (Nat.ne_zero_of_lt hfuel)
  simp only [call, evalExpanded, applyHead, bind, EStateM.bind, eval_name hname hp hroom]

theorem ComesTo.returns_atDepth {e : Expr} {m₁ : Machine} {x : Nat → EvalM Expr}
    (h : ComesTo opts e m x m₁) (hroom : ¬(opts.maxDepth ≠ 0 ∧ opts.maxDepth ≤ m.depth))
    {r : EStateM.Result Halt Machine Expr} (hx : ∃ least, ∀ fuel, least ≤ fuel → x fuel m₁ = r)
    (hends : ∀ m', r ≠ .error .outOfFuel m') (hdepth : (endState r).depth = m.depth + 1) :
    Returns opts e m (atDepth m.depth r) := by
  obtain ⟨least, h⟩ := h
  obtain ⟨least', hx⟩ := hx
  obtain ⟨y, hy, hdeep⟩ := h (max least least') (by omega)
  rw [hx _ (by omega)] at hdeep
  have heval : eval opts (max least least' + 1) e m = atDepth m.depth r := by
    have hback : m.depth = (endState r).depth - 1 := by rw [hdepth, Nat.add_sub_cancel]
    rw [hy, nested_of_not_reached opts.captures hroom, hdeep, hback]
    cases r <;> rfl
  cases r with
  | ok value m' => exact returns_of_eq_ok _ heval
  | error halt m' =>
      have hhalt : halt ≠ .outOfFuel := fun hout => hends m' (hout ▸ rfl)
      exact returns_of_eq_error _ hhalt heval

/-- An operation on words in all the ways its operands can come out, given the state they are evaluated in
and what it is for an outcome to be that of the operation. -/
structure Calculates (opts : Options) (op : Primitive) (operands : List Expr) (p : Provenance) (m : Machine)
    (Gives : EStateM.Result Halt Machine Expr → Prop) : Prop where
  value {values : List Expr} {ns : List Int64} {z : Int} {m' : Machine} :
    Evaluates opts operands m values m' → List.Forall₂ Expr.IsNumber values ns →
    op.Combines (ns.map Int64.toInt) z → ∃ n, Word.Represents n z ∧ Gives (.ok (.int n p) m')
  failure {pre rest values : List Expr} {e : Expr} {halt : Halt} {m' m'' : Machine} :
    operands = pre ++ e :: rest → Evaluates opts pre m values m' →
    Returns opts e m' (.error halt m'') → Gives (.error halt m'')
  wrongType {before after : List Expr} {ns : List Int64} {value : Expr} {m' : Machine} :
    Evaluates opts operands m (before ++ value :: after) m' →
    List.Forall₂ Expr.IsNumber before ns → (∀ n, ¬value.IsNumber n) →
    Gives (.error (.error ⟨.wrongType "int", some value⟩) m')

theorem Evaluates.length {es values : List Expr} {m m' : Machine} (h : Evaluates opts es m values m') :
    values.length = es.length := by
  induction h with
  | nil => rfl
  | cons _ _ ih => simp [ih]

theorem returns_depthExceeded (hname : m.env.lookup? op.name = some (.primitive op q))
    (hreached : opts.maxDepth ≠ 0 ∧ opts.maxDepth ≤ m.depth + 1) (operands : List Expr)
    (hp p : Provenance) :
    ∃ subject m', m'.env = m.env ∧ Returns opts (.list (.symbol op.name hp :: operands) p) m
      (.error (.error ⟨.depthExceeded, some subject⟩) m') := by
  let call := Expr.list (.symbol op.name hp :: operands) p
  have herror (e : EvalError) : Halt.error e ≠ .outOfFuel := by simp
  have hcall : eval opts 2 call m = nested opts call (evalExpanded opts (eval opts 1) call) m :=
    eval_of_ofMacro?_eq_none (ofMacro?_of_name hname operands hp p)
  by_cases hb : opts.maxDepth ≠ 0 ∧ opts.maxDepth ≤ m.depth
  · -- There is no room for the call itself.
    rw [nested, if_pos hb] at hcall
    exact ⟨call, m, rfl, returns_of_eq_error 2 (herror _) hcall⟩
  · have hhead : eval opts 1 (.symbol op.name hp) (deeper m) =
        .error (.error ⟨.depthExceeded, some (.symbol op.name hp)⟩) (deeper m) := if_pos hreached
    rw [nested_of_not_reached opts.captures hb] at hcall
    simp only [call, evalExpanded, applyHead, bind, EStateM.bind, hhead] at hcall
    exact ⟨_, { deeper m with depth := m.depth }, rfl, returns_of_eq_error 2 (herror _) hcall⟩

theorem calculates_primitive {fold : List Int64 → Int64} (hfold : op.fold? = some fold) (site : Expr)
    (operands : List Expr) (m : Machine) :
    Calculates opts op operands site.prov m fun r => ∃ least, ∀ fuel, least ≤ fuel →
      primitive (eval opts fuel) site op operands m = r where
  value {values ns z m'} hvalues hns hz := by
    obtain ⟨least, hall⟩ := hvalues.evalAll
    refine ⟨fold ns, Word.represents_fold hfold hz, least, fun fuel hfuel => ?_⟩
    have hops : op = .sub → operands ≠ [] := by
      rintro rfl rfl
      cases hvalues
      cases hns
      cases hz
    rw [primitive_of_fold? hfold _ hops]
    exact bind_eq_ok.mpr ⟨values, m', hall fuel hfuel,
      bind_eq_ok.mpr ⟨ns, m', numbers_of_forall₂ hns m', rfl⟩⟩
  failure {pre rest values e halt m' m''} hoperands hvalues he := by
    obtain ⟨least, hall⟩ := hvalues.evalAll_of_failure he rest
    refine ⟨least, fun fuel hfuel => ?_⟩
    rw [primitive_of_fold? hfold _ fun _ => by simp [hoperands], hoperands]
    simp only [bind, EStateM.bind, hall fuel hfuel]
  wrongType {before after ns value m'} hvalues hbefore hvalue := by
    obtain ⟨least, hall⟩ := hvalues.evalAll
    refine ⟨least, fun fuel hfuel => ?_⟩
    have hops : op = .sub → operands ≠ [] := by
      rintro - rfl
      simpa using hvalues.length
    rw [primitive_of_fold? hfold _ hops]
    simp only [bind, EStateM.bind, hall fuel hfuel, numbers_of_other hbefore hvalue after m']

theorem calculates_call {fold : List Int64 → Int64} (hfold : op.fold? = some fold)
    (hname : m.env.lookup? op.name = some (.primitive op q))
    (hroom : ¬(opts.maxDepth ≠ 0 ∧ opts.maxDepth ≤ m.depth + 1)) (operands : List Expr)
    (hp p : Provenance) :
    Calculates opts op operands p (operandState m) fun r =>
      Returns opts (.list (.symbol op.name hp :: operands) p) m (atDepth m.depth r) := by
  let call := Expr.list (.symbol op.name hp :: operands) p
  have hcall := comesTo_primitive hname hroom operands hp p
  have hprimitive : Calculates opts op operands p (operandState m) _ :=
    calculates_primitive hfold call operands (operandState m)
  have hroom' : ¬(opts.maxDepth ≠ 0 ∧ opts.maxDepth ≤ m.depth) := fun h => hroom ⟨h.1, by omega⟩
  constructor
  · intro values ns z m' hvalues hns hz
    obtain ⟨n, hn, hgives⟩ := hprimitive.value hvalues hns hz
    exact ⟨n, hn, hcall.returns_atDepth hroom' hgives nofun hvalues.depth⟩
  · intro pre rest values e halt m' m'' hoperands hvalues he
    exact hcall.returns_atDepth hroom' (hprimitive.failure hoperands hvalues he) he.not_outOfFuel
      (he.depth.trans hvalues.depth)
  · intro before after ns value m' hvalues hbefore hvalue
    exact hcall.returns_atDepth hroom' (hprimitive.wrongType hvalues hbefore hvalue) nofun hvalues.depth

/-- A sum, product or difference gives the word for the integer that comes of its operands, or it fails as
the first operand to fail does, or for the first value that is no number; and what it leaves behind is what
its operands have left. So does a call where these operations have their names, unless a bound on the
nesting leaves no room for what stands in the call. -/
theorem arithmetic_is_exact (opts : Options) {op : Primitive} (hop : op ∈ [Primitive.add, .mul, .sub])
    (operands : List Expr) :
    (∀ (site : Expr) (m : Machine), Calculates opts op operands site.prov m fun r =>
      ∃ least, ∀ fuel, least ≤ fuel → primitive (eval opts fuel) site op operands m = r) ∧
    ∀ {m : Machine} {q : Provenance}, m.env.lookup? op.name = some (.primitive op q) →
      ∀ hp p : Provenance,
        let call := Expr.list (.symbol op.name hp :: operands) p
        (¬(opts.maxDepth ≠ 0 ∧ opts.maxDepth ≤ m.depth + 1) →
          Calculates opts op operands p (operandState m) fun r => Returns opts call m (atDepth m.depth r)) ∧
        ((opts.maxDepth ≠ 0 ∧ opts.maxDepth ≤ m.depth + 1) → ∃ subject m', m'.env = m.env ∧
          Returns opts call m (.error (.error ⟨.depthExceeded, some subject⟩) m')) := by
  have hfold : ∃ fold, op.fold? = some fold := by
    simp only [List.mem_cons, List.not_mem_nil, or_false] at hop
    rcases hop with rfl | rfl | rfl <;> exact ⟨_, rfl⟩
  obtain ⟨fold, hfold⟩ := hfold
  refine ⟨fun site m => calculates_primitive hfold site operands m, fun hname hp p => ⟨?_, ?_⟩⟩
  · exact fun hroom => calculates_call hfold hname hroom operands hp p
  · exact fun hreached => returns_depthExceeded hname hreached operands hp p

theorem arithmetic_is_exact_of_largest_word :
    let define (n : Int64) := Expr.list [.symbol "def" [], .symbol "x" [], .int n []] []
    let doubled := [define 9223372036854775807, .symbol "x" []]
    let failing := [define 1, .symbol "y" [], define 2]
    let m := Machine.ofEnv .standard
    Primitive.add ∈ [Primitive.add, .mul, .sub] ∧
      m.env.lookup? Primitive.add.name = some (.primitive .add []) ∧
      (∃ n m', Word.Represents n 18446744073709551614 ∧
        Returns .default (.list (.symbol "+" [] :: doubled) []) m (.ok (.int n []) m')) ∧
      ∃ m', Returns .default (.list (.symbol "+" [] :: failing) []) m
          (.error (.error ⟨.unknownBinding, some (.symbol "y" [])⟩) m') ∧
        m'.env.lookup? "x" = some (.int 1 []) := by
  intro define doubled failing m
  have hname : m.env.lookup? Primitive.add.name = some (.primitive .add []) := rfl
  refine ⟨List.mem_cons_self, hname, ?_, ?_⟩
  · have hall := ((arithmetic_is_exact .default List.mem_cons_self doubled).2 hname [] []).1 (by decide)
    have hvalues : Evaluates .default doubled (operandState m)
        [.int 9223372036854775807 [], .int 9223372036854775807 []] _ :=
      .cons (returns_of_eq_ok 2 rfl) (.cons (returns_of_eq_ok 1 rfl) .nil)
    obtain ⟨n, hn, hreturns⟩ :=
      hall.value hvalues (.cons ⟨[], rfl⟩ (.cons ⟨[], rfl⟩ .nil)) (.sum [_, _])
    exact ⟨n, _, hn, hreturns⟩
  · have hall := ((arithmetic_is_exact .default List.mem_cons_self failing).2 hname [] []).1 (by decide)
    have hvalues : Evaluates .default [define 1] (operandState m) [.int 1 []] _ :=
      .cons (returns_of_eq_ok 2 rfl) .nil
    have hfailing : failing = [define 1] ++ .symbol "y" [] :: [define 2] := rfl
    exact ⟨_, hall.failure hfailing hvalues ⟨1, nofun, rfl⟩, rfl⟩

end Eval

end SmallLisp
