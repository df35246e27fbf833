import SmallLisp.Expr.Text
import SmallLisp.Proofs.Expr.Equality
import SmallLisp.Proofs.Text.Order

namespace SmallLisp

namespace Text

variable {α : Type}

theorem sortByKey_perm (pairs : List (String × α)) : (sortByKey pairs).Perm pairs :=
  List.mergeSort_perm pairs _

theorem sortByKey_ordered (pairs : List (String × α)) :
    (sortByKey pairs).Pairwise fun p q => p.1 ≤ q.1 :=
  mergeSort_ordered Prod.fst pairs

theorem sortByKey_eq_of_perm {ps qs : List (String × α)} (h : ps.Perm qs)
    (hps : ∀ p ∈ ps, ∀ q ∈ ps, p.1 = q.1 → p = q) : sortByKey ps = sortByKey qs := by
  have hsorted : (sortByKey ps).Perm (sortByKey qs) :=
    (sortByKey_perm ps).trans (h.trans (sortByKey_perm qs).symm)
  refine List.Perm.eq_of_pairwise ?_ (sortByKey_ordered ps) (sortByKey_ordered qs) hsorted
  intro p q hp hq hpq hqp
  have hq' : q ∈ ps := h.mem_iff.mpr ((sortByKey_perm qs).mem_iff.mp hq)
  exact hps p ((sortByKey_perm ps).mem_iff.mp hp) q hq' (String.le_antisymm hpq hqp)

end Text

namespace Expr

theorem text_map_of_ordered {es : List (Expr × Expr)} {p : Provenance}
    (h : (entryTexts es).Pairwise fun a b => a.1 ≤ b.1) : (Expr.map es p).text =
      Text.bracketed '{' '}' (Text.spaced ((entryTexts es).flatMap fun e => [e.1, e.2])) := by
  have hsorted : Text.sortByKey (entryTexts es) = entryTexts es :=
    List.mergeSort_of_pairwise (h.imp decide_eq_true)
  rw [text, hsorted]

/-- In no map of an expression are there keys that are spelled alike with values that are not. -/
inductive Unambiguous : Expr → Prop
  | nil : Unambiguous .nil
  | int {v : Int64} {p : Provenance} : Unambiguous (.int v p)
  | symbol {n : String} {p : Provenance} : Unambiguous (.symbol n p)
  | list {xs : List Expr} {p : Provenance} : (∀ x ∈ xs, Unambiguous x) → Unambiguous (.list xs p)
  | map {es : List (Expr × Expr)} {p : Provenance} :
      (∀ e ∈ es, ∀ f ∈ es, e.1.text = f.1.text → e.2.text = f.2.text) →
      (∀ e ∈ es, Unambiguous e.1) → (∀ e ∈ es, Unambiguous e.2) → Unambiguous (.map es p)
  | function {x : String} {xp p : Provenance} {b : Expr} {env : Option Bindings} :
      Unambiguous b → Unambiguous (.function x xp b env p)
  | expander {x : String} {xp p : Provenance} {b : Expr} {env : Option Bindings} :
      Unambiguous b → Unambiguous (.expander x xp b env p)
  | special {k : Special} {p : Provenance} : Unambiguous (.special k p)
  | primitive {o : Primitive} {p : Provenance} : Unambiguous (.primitive o p)

theorem texts_congr {xs ys : List Expr} (h : List.Forall₂ (fun x y => x.text = y.text) xs ys) :
    texts xs = texts ys := by
  induction h with
  | nil => rfl
  | cons hxy _ ih => simp only [texts, hxy, ih]

theorem entryTexts_congr {es fs : List (Expr × Expr)}
    (h : List.Forall₂ (fun e f => e.1.text = f.1.text ∧ e.2.text = f.2.text) es fs) :
    entryTexts es = entryTexts fs := by
  induction h with
  | nil => rfl
  | cons hef _ ih => simp only [entryTexts, hef.1, hef.2, ih]

theorem entryTexts_perm {es fs : List (Expr × Expr)} (h : es.Perm fs) :
    (entryTexts es).Perm (entryTexts fs) := by
  rw [entryTexts_eq_map, entryTexts_eq_map]
  exact h.map _

theorem sortByKey_entryTexts {es : List (Expr × Expr)} {pairs : List (String × String)}
    (hes : ∀ e ∈ es, ∀ f ∈ es, e.1.text = f.1.text → e.2.text = f.2.text)
    (hperm : (entryTexts es).Perm pairs) :
    Text.sortByKey (entryTexts es) = Text.sortByKey pairs := by
  refine Text.sortByKey_eq_of_perm hperm ?_
  rw [entryTexts_eq_map]
  simp only [List.forall_mem_map]
  exact fun e he f hf hkeys => Prod.ext hkeys (hes e he f hf hkeys)

theorem Same.text_eq {a b : Expr} (h : a.Same b) (ha : a.Unambiguous) : a.text = b.text := by
  induction h with
  | nil | int | symbol | special | primitive => rfl
  | function _ ih =>
      cases ha with
      | function ha => simp only [text, ih ha]
  | expander _ ih =>
      cases ha with
      | expander ha => simp only [text, ih ha]
  | list hlen _ ih =>
      cases ha with
      | list ha =>
          have hitems := forall₂_iff_mem_zip (R := fun x y => x.text = y.text).mpr
            ⟨hlen, fun z hz => ih z hz (ha z.1 (List.of_mem_zip hz).1)⟩
          simp only [text, texts_congr hitems]
  | map hlen _ _ hperm ihkeys ihvalues =>
      cases ha with
      | map hes hkeys hvalues =>
          have hentries := forall₂_iff_mem_zip
            (R := fun e f => e.1.text = f.1.text ∧ e.2.text = f.2.text).mpr
            ⟨hlen, fun z hz => ⟨ihkeys z hz (hkeys z.1 (List.of_mem_zip hz).1),
              ihvalues z hz (hvalues z.1 (List.of_mem_zip hz).1)⟩⟩
          -- In the order of the first map the entries of the second one are spelled as those of the first.
          have hperm' : (entryTexts _).Perm (entryTexts _) :=
            entryTexts_congr hentries ▸ entryTexts_perm hperm
          simp only [text, sortByKey_entryTexts hes hperm']

/-- Equal expressions are spelled the same, unless keys of a map are spelled alike with values that are
not. The order in which the entries of maps were set does not show, nor where anything comes from. -/
theorem equal_texts_agree {captures : Bool} {a b : Expr} (ha : a.Built captures) (hb : b.Built captures)
    (hunambiguous : a.Unambiguous) (h : a.equal b = true) : a.text = b.text :=
  ((equal_iff_same ha.keyed hb.keyed).mp h).text_eq hunambiguous

theorem equal_texts_agree_of_swapped_entries :
    let there : Provenance := [⟨some ⟨.start, ⟨4, 0, 4⟩⟩, none⟩]
    -- A special form and its name are spelled alike as keys, with values that are spelled alike, too.
    let inner (p : Provenance) := Expr.map (Entries.changed [.set (.special .quote p) (.symbol "nil" p),
      .set (.symbol "quote" p) .nil]) p
    let inner' := Expr.map (Entries.changed [.set (.symbol "quote" there) .nil,
      .set (.special .quote there) (.symbol "nil" there)]) there
    let a := Expr.map (Entries.changed [.set (inner []) (.int 1 []), .set (.int 2 []) (inner [])]) []
    let b := Expr.map (Entries.changed [.set (.int 2 there) inner', .set inner' (.int 1 there)]) there
    a.Built false ∧ b.Built false ∧ a.Unambiguous ∧ a.equal b = true ∧ a.text = b.text := by
  intro there inner inner' a b
  have hinner (p : Provenance) : (inner p).Built false :=
    .map (by simp [Entries.Change.parts, Built.special, Built.symbol, Built.nil])
  have hinner' : inner'.Built false :=
    .map (by simp [Entries.Change.parts, Built.special, Built.symbol, Built.nil])
  have ha : a.Built false := .map (by simp [Entries.Change.parts, Built.int, hinner])
  have hb : b.Built false := .map (by simp [Entries.Change.parts, Built.int, hinner'])
  have hab : a.equal b = true := by decide
  have hspecial : (inner []).Unambiguous := by
    have hentries : inner [] =
        .map [(.special .quote [], .symbol "nil" []), (.symbol "quote" [], .nil)] [] := rfl
    rw [hentries]
    exact .map (by simp [text]) (by simp [Unambiguous.special, Unambiguous.symbol])
      (by simp [Unambiguous.symbol, Unambiguous.nil])
  have hu : a.Unambiguous := by
    have hentries : a = .map [(inner [], .int 1 []), (.int 2 [], inner [])] [] := rfl
    rw [hentries]
    have hinner : (inner []).text = "{quote nil quote nil}" :=
      (text_map_of_ordered (by decide +kernel)).trans (by decide +kernel)
    have hkeys : (inner []).text ≠ (Expr.int 2 []).text := by
      rw [hinner]
      decide +kernel
    refine .map ?_ (by simp [hspecial, Unambiguous.int]) (by simp [hspecial, Unambiguous.int])
    simp [hkeys, hkeys.symm]
  exact ⟨ha, hb, hu, hab, equal_texts_agree ha hb hu hab⟩

/-- Of two maps with the same entries one is spelled otherwise, as a key of it is a special form and
another one is its name. -/
theorem texts_depend_on_order :
    let form : Entries.Change := .set (.special .quote []) (.int 1 [])
    let name : Entries.Change := .set (.symbol "quote" []) (.int 2 [])
    let a := Expr.map (Entries.changed [form, name]) []
    let b := Expr.map (Entries.changed [name, form]) []
    a.Built false ∧ b.Built false ∧ a.equal b = true ∧
      a.text = "{quote 1 quote 2}" ∧ b.text = "{quote 2 quote 1}" := by
  intro form name a b
  have hform : ∀ x ∈ form.parts, x.Built false := by
    simp [form, Entries.Change.parts, Built.special, Built.int]
  have hname : ∀ x ∈ name.parts, x.Built false := by
    simp [name, Entries.Change.parts, Built.symbol, Built.int]
  have ha : a.Built false := .map (List.forall_mem_cons.mpr ⟨hform, List.forall_mem_singleton.mpr hname⟩)
  have hb : b.Built false := .map (List.forall_mem_cons.mpr ⟨hname, List.forall_mem_singleton.mpr hform⟩)
  have htext : a.text = "{quote 1 quote 2}" :=
    (text_map_of_ordered (by decide +kernel)).trans (by decide +kernel)
  have htext' : b.text = "{quote 2 quote 1}" :=
    (text_map_of_ordered (by decide +kernel)).trans (by decide +kernel)
  exact ⟨ha, hb, by decide, htext, htext'⟩

end Expr

end SmallLisp
