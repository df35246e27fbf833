import SmallLisp.Expr.Hash
import SmallLisp.Proofs.Expr.Equality

namespace SmallLisp

namespace Expr

variable {nameHash : String → UInt32}

theorem hashList_congr {xs ys : List Expr}
    (h : List.Forall₂ (fun x y => x.hash nameHash = y.hash nameHash) xs ys) (start : UInt32) :
    hashList nameHash start xs = hashList nameHash start ys := by
  induction h generalizing start with
  | nil => rfl
  | cons hxy _ ih =>
      simp only [hashList, hxy]
      exact ih _

theorem hashEntries_congr {es fs : List (Expr × Expr)}
    (h : List.Forall₂ (fun e f => e.1.hash nameHash = f.1.hash nameHash ∧
      e.2.hash nameHash = f.2.hash nameHash) es fs) :
    hashEntries nameHash es = hashEntries nameHash fs := by
  induction h with
  | nil => rfl
  | cons hef _ ih => simp only [hashEntries, hef.1, hef.2, ih]

theorem hashEntries_perm {es fs : List (Expr × Expr)} (h : es.Perm fs) :
    hashEntries nameHash es = hashEntries nameHash fs := by
  induction h with
  | nil => rfl
  | cons e _ ih => simp only [hashEntries, ih]
  | swap e f es =>
      simp only [hashEntries]
      rw [← UInt32.add_assoc, ← UInt32.add_assoc, UInt32.add_comm (Hash.mix _ _) (Hash.mix _ _)]
  | trans _ _ ih ih' => exact ih.trans ih'

theorem Same.hash_eq {a b : Expr} (h : a.Same b) : a.hash nameHash = b.hash nameHash := by
  induction h with
  | nil | int | symbol | special | primitive => rfl
  | function _ ih => simp only [hash, ih]
  | expander _ ih => simp only [hash, ih]
  | list hlen _ ih =>
      have hitems := forall₂_iff_mem_zip
        (R := fun x y => x.hash nameHash = y.hash nameHash).mpr ⟨hlen, ih⟩
      exact hashList_congr hitems 7
  | map hlen _ _ hperm ihkeys ihvalues =>
      have hentries := forall₂_iff_mem_zip (R := fun e f => e.1.hash nameHash = f.1.hash nameHash ∧
        e.2.hash nameHash = f.2.hash nameHash).mpr
        ⟨hlen, fun z hz => ⟨ihkeys z hz, ihvalues z hz⟩⟩
      have hsum := (hashEntries_congr hentries).trans (hashEntries_perm hperm)
      simp only [hash, hsum]

theorem equal_hashes_agree (nameHash : String → UInt32) {captures : Bool} {a b : Expr}
    (ha : a.Built captures) (hb : b.Built captures) (h : a.equal b = true) :
    a.hash nameHash = b.hash nameHash :=
  ((equal_iff_same ha.keyed hb.keyed).mp h).hash_eq

theorem equal_hashes_agree_of_swapped_entries :
    let nameHash : String → UInt32 := fun name => UInt32.ofNat name.length
    let there : Provenance := [⟨some ⟨.start, ⟨4, 0, 4⟩⟩, none⟩]
    let callee (p : Provenance) (env : Option Bindings) :=
      Expr.function "x" p (.symbol "y" p) env p
    let a := Expr.map (Entries.changed [.set (.symbol "k" []) (.int 1 []),
      .set (.int 2 []) (callee [] none)]) []
    let b := Expr.map (Entries.changed [.set (.int 2 there) (callee there (some [("y", .nil)])),
      .set (.symbol "k" there) (.int 1 there)]) there
    a.Built true ∧ b.Built true ∧ a.equal b = true ∧ a.hash nameHash = b.hash nameHash := by
  intro nameHash there callee a b
  have hbare : (callee [] none).Built true := .function .symbol (by simp) (by simp)
  have hcaptured : (callee there (some [("y", .nil)])).Built true :=
    .function .symbol (by simp) (by simp [Built.nil])
  have ha : a.Built true := .map (by simp [Entries.Change.parts, Built.symbol, Built.int, hbare])
  have hb : b.Built true := .map (by simp [Entries.Change.parts, Built.symbol, Built.int, hcaptured])
  have hab : a.equal b = true := by decide
  exact ⟨ha, hb, hab, equal_hashes_agree nameHash ha hb hab⟩

end Expr

end SmallLisp
