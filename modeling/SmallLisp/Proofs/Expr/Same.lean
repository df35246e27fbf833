import SmallLisp.Expr.Basic
import Mathlib.Data.List.Forall2
import Mathlib.Data.List.Perm.Basic

namespace SmallLisp

theorem forall₂_iff_mem_zip {α β : Type} {R : α → β → Prop} {xs : List α} {ys : List β} :
    List.Forall₂ R xs ys ↔ xs.length = ys.length ∧ ∀ z ∈ xs.zip ys, R z.1 z.2 := by
  rw [List.forall₂_iff_zip]
  exact and_congr_right fun _ => ⟨fun h z hz => h hz, fun h x y hz => h (x, y) hz⟩

theorem forall₂_trans_of {α β γ : Type} {R : α → γ → Prop} {S : β → γ → Prop} {xs : List α}
    {ys : List β} {zs : List γ} (h : List.Forall₂ (fun x y => ∀ z, S y z → R x z) xs ys)
    (k : List.Forall₂ S ys zs) : List.Forall₂ R xs zs := by
  induction h generalizing zs with
  | nil =>
      cases k
      exact .nil
  | cons h _ ih =>
      cases k with
      | cons k ks => exact .cons (h _ k) (ih ks)

namespace Expr

inductive Same : Expr → Expr → Prop
  | nil : Same .nil .nil
  | int {v : Int64} {p q : Provenance} : Same (.int v p) (.int v q)
  | symbol {n : String} {p q : Provenance} : Same (.symbol n p) (.symbol n q)
  | list {xs ys : List Expr} {p q : Provenance} : xs.length = ys.length →
      (∀ z ∈ xs.zip ys, Same z.1 z.2) → Same (.list xs p) (.list ys q)
  | map {es fs' fs : List (Expr × Expr)} {p q : Provenance} : es.length = fs'.length →
      (∀ z ∈ es.zip fs', Same z.1.1 z.2.1) → (∀ z ∈ es.zip fs', Same z.1.2 z.2.2) →
      fs'.Perm fs → Same (.map es p) (.map fs q)
  | function {x : String} {b c : Expr} {env env' : Option (List (String × Expr))}
      {xp yp p q : Provenance} :
      Same b c → Same (.function x xp b env p) (.function x yp c env' q)
  | expander {x : String} {b c : Expr} {env env' : Option (List (String × Expr))}
      {xp yp p q : Provenance} :
      Same b c → Same (.expander x xp b env p) (.expander x yp c env' q)
  | special {k : Special} {p q : Provenance} : Same (.special k p) (.special k q)
  | primitive {o : Primitive} {p q : Provenance} : Same (.primitive o p) (.primitive o q)

def SameEntry (e f : Expr × Expr) : Prop := e.1.Same f.1 ∧ e.2.Same f.2

theorem same_list_iff {xs ys : List Expr} {p q : Provenance} :
    (Expr.list xs p).Same (.list ys q) ↔ List.Forall₂ Same xs ys := by
  rw [forall₂_iff_mem_zip]
  constructor
  · intro h
    cases h with
    | list hlen h => exact ⟨hlen, h⟩
  · rintro ⟨hlen, h⟩
    exact .list hlen h

theorem same_map_iff {es fs : List (Expr × Expr)} {p q : Provenance} :
    (Expr.map es p).Same (.map fs q) ↔ ∃ fs', List.Forall₂ SameEntry es fs' ∧ fs'.Perm fs := by
  constructor
  · intro h
    cases h with
    | map hlen hkeys hvalues hperm =>
        exact ⟨_, forall₂_iff_mem_zip.mpr ⟨hlen, fun z hz => ⟨hkeys z hz, hvalues z hz⟩⟩, hperm⟩
  · rintro ⟨fs', h, hperm⟩
    obtain ⟨hlen, h⟩ := forall₂_iff_mem_zip.mp h
    exact .map hlen (fun z hz => (h z hz).1) (fun z hz => (h z hz).2) hperm

theorem Same.symm {a b : Expr} (h : a.Same b) : b.Same a := by
  induction h with
  | nil => exact .nil
  | int => exact .int
  | symbol => exact .symbol
  | special => exact .special
  | primitive => exact .primitive
  | function _ ih => exact .function ih
  | expander _ ih => exact .expander ih
  | list hlen _ ih =>
      have h := forall₂_iff_mem_zip (R := fun x y => y.Same x).mpr ⟨hlen, ih⟩
      exact same_list_iff.mpr h.flip
  | map hlen _ _ hperm ihkeys ihvalues =>
      have h := forall₂_iff_mem_zip (R := fun e f => SameEntry f e).mpr
        ⟨hlen, fun z hz => ⟨ihkeys z hz, ihvalues z hz⟩⟩
      exact same_map_iff.mpr (List.perm_comp_forall₂ hperm.symm h.flip)

theorem Same.trans {a b c : Expr} (h : a.Same b) (k : b.Same c) : a.Same c := by
  induction h generalizing c with
  | nil => exact k
  | int =>
      cases k
      exact .int
  | symbol =>
      cases k
      exact .symbol
  | special =>
      cases k
      exact .special
  | primitive =>
      cases k
      exact .primitive
  | function _ ih =>
      cases k with
      | function k => exact .function (ih k)
  | expander _ ih =>
      cases k with
      | expander k => exact .expander (ih k)
  | list hlen _ ih =>
      cases k with
      | list klen k =>
          have h := forall₂_iff_mem_zip (R := fun x y => ∀ z, y.Same z → x.Same z).mpr
            ⟨hlen, fun z hz _ => ih z hz⟩
          exact same_list_iff.mpr (forall₂_trans_of h (forall₂_iff_mem_zip.mpr ⟨klen, k⟩))
  | map hlen _ _ hperm ihkeys ihvalues =>
      cases k with
      | map klen kkeys kvalues kperm =>
          have h := forall₂_iff_mem_zip (R := fun e f => ∀ g, SameEntry f g → SameEntry e g).mpr
            ⟨hlen, fun z hz g k => ⟨ihkeys z hz k.1, ihvalues z hz k.2⟩⟩
          have k := forall₂_iff_mem_zip (R := SameEntry).mpr
            ⟨klen, fun z hz => ⟨kkeys z hz, kvalues z hz⟩⟩
          -- The second map is put in the order of the first before the step to the third.
          obtain ⟨gs, hgs, hgsperm⟩ := List.perm_comp_forall₂ hperm k
          exact same_map_iff.mpr ⟨gs, forall₂_trans_of h hgs, hgsperm.trans kperm⟩

mutual

def core : Expr → Expr
  | .nil => .nil
  | .int v _ => .int v []
  | .symbol n _ => .symbol n []
  | .list xs _ => .list (coreItems xs) []
  | .map es _ => .map (coreEntries es) []
  | .function x _ b _ _ => .function x [] b.core none []
  | .expander x _ b _ _ => .expander x [] b.core none []
  | .special k _ => .special k []
  | .primitive o _ => .primitive o []

def coreItems : List Expr → List Expr
  | [] => []
  | x :: xs => x.core :: coreItems xs

def coreEntries : List (Expr × Expr) → List (Expr × Expr)
  | [] => []
  | (k, v) :: es => (k.core, v.core) :: coreEntries es

end

mutual

theorem same_core (a : Expr) : a.Same a.core := by
  match a with
  | .nil => exact .nil
  | .int v p => exact .int
  | .symbol n p => exact .symbol
  | .special k p => exact .special
  | .primitive o p => exact .primitive
  | .list xs p => exact same_list_iff.mpr (same_coreItems xs)
  | .map es p => exact same_map_iff.mpr ⟨_, same_coreEntries es, .refl _⟩
  | .function x xp b env p => exact .function (same_core b)
  | .expander x xp b env p => exact .expander (same_core b)

theorem same_coreItems (xs : List Expr) : List.Forall₂ Same xs (coreItems xs) := by
  match xs with
  | [] => exact .nil
  | x :: xs => exact .cons (same_core x) (same_coreItems xs)

theorem same_coreEntries (es : List (Expr × Expr)) : List.Forall₂ SameEntry es (coreEntries es) := by
  match es with
  | [] => exact .nil
  | (k, v) :: es => exact .cons ⟨same_core k, same_core v⟩ (same_coreEntries es)

end

theorem same_of_core_eq {a b : Expr} (h : a.core = b.core) : a.Same b := by
  have hb : a.core.Same b := h ▸ (same_core b).symm
  exact (same_core a).trans hb

theorem Same.refl (a : Expr) : a.Same a := same_of_core_eq rfl

end Expr

end SmallLisp
