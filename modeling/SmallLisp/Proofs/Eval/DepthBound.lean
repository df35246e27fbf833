import SmallLisp.Proofs.Eval.Checkpoints
import SmallLisp.Proofs.Eval.Respected
import Mathlib.Data.Nat.Basic
import Mathlib.Order.Basic

namespace SmallLisp

structure Machine.Deepens (m m' : Machine) : Prop where
  depth : m'.depth = m.depth
  deepest : m.stats.depth ≤ m'.stats.depth

namespace EvalM

variable {α β : Type}

def Exceeds (n : Nat) (r : EStateM.Result Halt Machine α) : Prop :=
  ∃ subject m, r = .error (.error ⟨.depthExceeded, some subject⟩) m ∧ m.stats.depth = n

/-- The second computation is the first one cut off where the nesting exceeds the bound. -/
structure Bounded (n : Nat) (P : α → Prop) (x y : EvalM α) : Prop where
  value {m m' : Machine} {a : α} : x m = .ok a m' → P a
  deepens (m : Machine) : m.Deepens (x.after m)
  cut {m : Machine} : m.depth ≤ m.stats.depth → m.stats.depth ≤ n →
    (x.after m).stats.depth ≤ n ∧ y m = x m ∨ n < (x.after m).stats.depth ∧ Exceeds n (y m)

variable {n : Nat} {P : α → Prop} {Q : β → Prop}

theorem bounded_self {x : EvalM α} (hP : ∀ {m m' a}, x m = .ok a m' → P a)
    (hx : ∀ m, (x.after m).depth = m.depth ∧ (x.after m).stats.depth = m.stats.depth) :
    Bounded n P x x where
  value := hP
  deepens m := ⟨(hx m).1, (hx m).2.ge⟩
  cut {m} _ hn := .inl ⟨(hx m).2.trans_le hn, rfl⟩

theorem bounded_pure {a : α} (ha : P a) : Bounded n P (pure a) (pure a) := by
  refine bounded_self ?_ fun m => ⟨rfl, rfl⟩
  intro m m' b hb
  cases hb
  exact ha

theorem bounded_throw (halt : Halt) : Bounded n P (throw halt) (throw halt) :=
  bounded_self (fun h => nomatch h) fun _ => ⟨rfl, rfl⟩

theorem bounded_get : Bounded n (fun _ => True) get get :=
  bounded_self (fun _ => trivial) fun _ => ⟨rfl, rfl⟩

theorem bounded_modify {f : Machine → Machine}
    (hf : ∀ m, (f m).depth = m.depth ∧ (f m).stats.depth = m.stats.depth) :
    Bounded n (fun _ => True) (modify f) (modify f) :=
  bounded_self (fun _ => trivial) hf

theorem after_bind (x : EvalM α) (f : α → EvalM β) (m : Machine) :
    (x >>= f).after m = match x m with
      | .ok a m' => (f a).after m'
      | .error _ m' => m' := by
  simp only [after, bind, EStateM.bind]
  cases x m <;> rfl

theorem bounded_bind {x y : EvalM α} {f k : α → EvalM β} (hxy : Bounded n P x y)
    (hfk : ∀ a, P a → Bounded n Q (f a) (k a)) : Bounded n Q (x >>= f) (y >>= k) where
  value {m m'' b} hb := by
    obtain ⟨a, m', hr, h⟩ := bind_eq_ok.mp hb
    exact (hfk a (hxy.value hr)).value h
  deepens m := by
    have hx := hxy.deepens m
    rw [after_bind]
    simp only [after] at hx
    cases hr : x m with
    | error halt m' => simpa only [hr] using hx
    | ok a m' =>
        simp only [hr] at hx
        have hf := (hfk a (hxy.value hr)).deepens m'
        exact ⟨hf.depth.trans hx.depth, hx.deepest.trans hf.deepest⟩
  cut {m} hm hn := by
    have hx := hxy.deepens m
    have hc := hxy.cut hm hn
    rw [after_bind]
    simp only [after] at hx hc
    cases hr : x m with
    | error halt m' =>
        simp only [hr] at hc
        rcases hc with ⟨hle, hy⟩ | ⟨hlt, subject, m₁, hy, hn₁⟩
        · exact .inl ⟨hle, by simp only [bind, EStateM.bind, hr, hy]⟩
        · exact .inr ⟨hlt, subject, m₁, by simp only [bind, EStateM.bind, hy], hn₁⟩
    | ok a m' =>
        simp only [hr] at hx hc
        have hf := hfk a (hxy.value hr)
        rcases hc with ⟨hle, hy⟩ | ⟨hlt, subject, m₁, hy, hn₁⟩
        · have hm' : m'.depth ≤ m'.stats.depth := hx.depth.trans_le (hm.trans hx.deepest)
          simpa only [bind, EStateM.bind, hr, hy] using hf.cut hm' hle
        · have hlt' := hlt.trans_le (hf.deepens m').deepest
          exact .inr ⟨hlt', subject, m₁, by simp only [bind, EStateM.bind, hy], hn₁⟩

theorem after_inCheckpoint (x : EvalM Expr) (m : Machine) :
    ((inCheckpoint x).after m).depth = (x.after { m with env := m.env.enter }).depth ∧
      ((inCheckpoint x).after m).stats = (x.after { m with env := m.env.enter }).stats := by
  simp only [after, inCheckpoint]
  cases x { m with env := m.env.enter } with
  | ok value m' => cases h : m'.env.leave? <;> simp [h]
  | error halt m' => cases h : m'.env.leave? <;> simp [h]

theorem exceeds_inCheckpoint {y : EvalM Expr} {m : Machine}
    (h : Exceeds n (y { m with env := m.env.enter })) : Exceeds n (inCheckpoint y m) := by
  obtain ⟨subject, m', hy, hn⟩ := h
  simp only [inCheckpoint, hy]
  cases m'.env.leave? with
  | none => exact ⟨subject, m', rfl, hn⟩
  | some env => exact ⟨subject, _, rfl, hn⟩

theorem bounded_inCheckpoint {x y : EvalM Expr} (h : Bounded n (fun _ => True) x y) :
    Bounded n (fun _ => True) (inCheckpoint x) (inCheckpoint y) where
  value _ := trivial
  deepens m := by
    obtain ⟨hd, hs⟩ := after_inCheckpoint x m
    have hx := h.deepens { m with env := m.env.enter }
    exact ⟨hd.trans hx.depth, hs ▸ hx.deepest⟩
  cut {m} hm hn := by
    rw [(after_inCheckpoint x m).2]
    have hc := h.cut (m := { m with env := m.env.enter }) hm hn
    rcases hc with ⟨hle, hy⟩ | ⟨hlt, hy⟩
    · exact .inl ⟨hle, by simp only [inCheckpoint, hy]⟩
    · exact .inr ⟨hlt, exceeds_inCheckpoint hy⟩

def deeper (m : Machine) : Machine :=
  { m with stats := { m.stats with depth := max m.stats.depth (m.depth + 1) }, depth := m.depth + 1 }

theorem nested_of_not_reached (captures : Bool) {b : Nat} {m : Machine} (h : ¬(b ≠ 0 ∧ b ≤ m.depth))
    (e : Expr) (x : EvalM Expr) :
    nested ⟨captures, b⟩ e x m = match x (deeper m) with
      | .ok value m' => .ok value { m' with depth := m'.depth - 1 }
      | .error halt m' => .error halt { m' with depth := m'.depth - 1 } := by
  simp only [nested, if_neg h]
  rfl

theorem after_nested (captures : Bool) (e : Expr) (x : EvalM Expr) (m : Machine) :
    (nested ⟨captures, 0⟩ e x).after m =
      { x.after (deeper m) with depth := (x.after (deeper m)).depth - 1 } := by
  simp only [after, nested_of_not_reached captures (b := 0) (m := m) (by simp)]
  cases x (deeper m) <;> rfl

theorem bounded_nested (captures : Bool) (e : Expr) {x y : EvalM Expr} (hn : 0 < n)
    (h : Bounded n (fun _ => True) x y) :
    Bounded n (fun _ => True) (nested ⟨captures, 0⟩ e x) (nested ⟨captures, n⟩ e y) where
  value _ := trivial
  deepens m := by
    have hx := h.deepens (deeper m)
    rw [after_nested]
    exact ⟨by rw [hx.depth]; rfl, (le_max_left _ _).trans hx.deepest⟩
  cut {m} hm hmn := by
    have hx : m.depth + 1 ≤ (x.after (deeper m)).stats.depth :=
      (le_max_right _ _).trans (h.deepens (deeper m)).deepest
    rw [after_nested]
    by_cases hb : n ≤ m.depth
    · -- The bound is reached here, and the unbounded run goes one level deeper.
      have hstop : nested ⟨captures, n⟩ e y m = .error (.error ⟨.depthExceeded, some e⟩) m :=
        if_pos ⟨hn.ne', hb⟩
      exact .inr ⟨by simp only; omega, e, m, hstop, by omega⟩
    · rw [nested_of_not_reached captures (b := 0) (by simp),
        nested_of_not_reached captures (b := n) (by simp [hb])]
      have hdeep : (deeper m).stats.depth ≤ n := max_le hmn (by omega)
      rcases h.cut (le_max_right _ _) hdeep with ⟨hle, hy⟩ | ⟨hlt, subject, m', hy, hm'⟩
      · exact .inl ⟨hle, by rw [hy]⟩
      · exact .inr ⟨hlt, subject, { m' with depth := m'.depth - 1 }, by rw [hy], hm'⟩

end EvalM

namespace Eval

open EvalM

variable {n : Nat}

theorem bounded_reference (name : String) (prov : Provenance) :
    Bounded n (fun _ => True) (reference name prov) (reference name prov) := by
  refine bounded_bind bounded_get fun m _ => ?_
  cases m.env.lookup? name with
  | none => exact bounded_throw _
  | some value => exact bounded_pure trivial

theorem bounded_run {ev ev' : Evaluator} (c : Call)
    (h : Bounded n (fun _ => True) (ev c.body) (ev' c.body)) :
    Bounded n (fun _ => True) (c.run ev) (c.run ev') := by
  refine bounded_bind (bounded_modify fun _ => ⟨rfl, rfl⟩) fun _ _ => ?_
  apply bounded_inCheckpoint
  exact bounded_bind (bounded_modify fun _ => ⟨rfl, rfl⟩) fun _ _ => h

theorem respected_bounded (captures : Bool) (hn : 0 < n) :
    Respected ⟨captures, 0⟩ ⟨captures, n⟩ (fun _ => True) (fun _ => True) (fun _ => True)
      (Bounded n) where
  toClosedValues := closedValues_true
  pure := bounded_pure
  bind := bounded_bind
  fail _ _ _ := bounded_throw _
  outOfFuel := bounded_throw _
  assign _ _ := bounded_modify fun _ => ⟨rfl, rfl⟩
  reference _ := bounded_reference _ _
  capture _ _ _ _ _ _ := bounded_bind bounded_get fun _ _ => bounded_pure trivial
  macroCall _ := bounded_bind bounded_get fun _ _ => bounded_pure fun _ _ => trivial
  called _ := trivial
  counted _ := bounded_modify fun _ => ⟨rfl, rfl⟩
  call _ hev := bounded_run _ (hev _ trivial)
  nested _ h := bounded_nested captures _ hn h

/-- A bound that the run without one keeps to changes nothing about the run; under any other bound
the run fails at the bound. -/
theorem depth_bound_is_exact (captures : Bool) (fuel : Nat) (env : Env) (e : Expr) {n : Nat}
    (hn : 0 < n) :
    let free := eval ⟨captures, 0⟩ fuel e
    let bounded := eval ⟨captures, n⟩ fuel e
    let deepest := (free.after (.ofEnv env)).stats.depth
    (deepest ≤ n → bounded (.ofEnv env) = free (.ofEnv env)) ∧
      (n < deepest → ∃ subject m, m.stats.depth = n ∧
        bounded (.ofEnv env) = .error (.error ⟨.depthExceeded, some subject⟩) m) := by
  intro free bounded deepest
  have h : Bounded n (fun _ => True) free bounded :=
    (respected_bounded captures hn).eval fuel trivial
  rcases h.cut (m := .ofEnv env) (Nat.le_refl 0) (Nat.zero_le n) with
    ⟨hle, hsame⟩ | ⟨hlt, subject, m, hstop, hm⟩
  · exact ⟨fun _ => hsame, fun hlt => absurd hle hlt.not_ge⟩
  · exact ⟨fun hle => absurd hlt hle.not_gt, fun _ => ⟨subject, m, hm, hstop⟩⟩

theorem depth_bound_is_exact_of_quotation :
    let e := Expr.list [.special .quote [], .int 7 []] []
    let free := eval ⟨false, 0⟩ 3 e
    (free.after (.ofEnv .empty)).stats.depth = 2 ∧
      eval ⟨false, 2⟩ 3 e (.ofEnv .empty) = free (.ofEnv .empty) ∧
      ∃ subject m, m.stats.depth = 1 ∧
        eval ⟨false, 1⟩ 3 e (.ofEnv .empty) = .error (.error ⟨.depthExceeded, some subject⟩) m := by
  intro e free
  have hd : (free.after (.ofEnv .empty)).stats.depth = 2 := rfl
  refine ⟨hd, ?_, ?_⟩
  · exact (depth_bound_is_exact false 3 .empty e (n := 2) (by decide)).1 hd.le
  · exact (depth_bound_is_exact false 3 .empty e (n := 1) (by decide)).2 (hd ▸ Nat.one_lt_two)

end Eval

end SmallLisp
