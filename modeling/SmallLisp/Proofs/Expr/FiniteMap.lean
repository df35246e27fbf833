import SmallLisp.Expr.Text
import SmallLisp.Proofs.Expr.Hash
import SmallLisp.Proofs.Text.Order
import Mathlib.Data.List.Induction
import Mathlib.Logic.Function.Basic

namespace SmallLisp

namespace Expr

theorem equal_congr {a b c : Expr} (ha : a.Keyed) (hb : b.Keyed) (hc : c.Keyed)
    (h : a.equal b = true) : a.equal c = b.equal c := by
  have hab := (equal_iff_same ha hb).mp h
  rw [Bool.eq_iff_iff, equal_iff_same ha hc, equal_iff_same hb hc]
  exact ⟨hab.symm.trans, hab.trans⟩

theorem equal_symm {a b : Expr} (ha : a.Keyed) (hb : b.Keyed) : a.equal b = b.equal a := by
  rw [Bool.eq_iff_iff, equal_iff_same ha hb, equal_iff_same hb ha]
  exact ⟨.symm, .symm⟩

instance : Setoid Expr := ⟨Same, .refl, .symm, .trans⟩

theorem length_le_of_same {xs ys : List Expr} (hxs : xs.Pairwise fun x y => ¬x.Same y)
    (h : ∀ x ∈ xs, ∃ y ∈ ys, y.Same x) : xs.length ≤ ys.length := by
  let saying (x : Expr) : Quotient (inferInstance : Setoid Expr) := Quotient.mk _ x
  have hnodup : (xs.map saying).Nodup :=
    List.pairwise_map.mpr (hxs.imp fun hxy heq => hxy (Quotient.exact heq))
  have hsub : xs.map saying ⊆ ys.map saying := by
    intro q hq
    obtain ⟨x, hx, rfl⟩ := List.mem_map.mp hq
    obtain ⟨y, hy, hyx⟩ := h x hx
    exact List.mem_map.mpr ⟨y, hy, Quotient.sound hyx⟩
  simpa using (List.subperm_of_subset hnodup hsub).length_le

theorem sortEntries_perm (es : Entries) : (sortEntries es).Perm es :=
  List.mergeSort_perm es _

theorem sortEntries_ordered (es : Entries) :
    (sortEntries es).Pairwise fun e f => Text.bytes e.1.text ≤ Text.bytes f.1.text :=
  (Text.mergeSort_ordered (fun e : Expr × Expr => e.1.text) es).imp (Text.le_iff_bytes_le _ _).mp

end Expr

namespace Entries

theorem get?_cons (e : Expr × Expr) (es : Entries) (key : Expr) :
    get? (e :: es) key = if e.1.equal key then some e.2 else es.get? key := by
  by_cases h : e.1.equal key = true <;> simp [get?, h]

theorem get?_eq_none_iff {es : Entries} {key : Expr} :
    es.get? key = none ↔ ∀ e ∈ es, e.1.equal key = false := by
  simp [get?]

theorem get?_filter {es : Entries} {key : Expr} {p : Expr × Expr → Bool}
    (hp : ∀ e ∈ es, e.1.equal key = true → p e = true) : get? (es.filter p) key = es.get? key := by
  induction es with
  | nil => rfl
  | cons e es ih =>
      obtain ⟨he, hes⟩ := List.forall_mem_cons.mp hp
      by_cases hpe : p e = true
      · rw [List.filter_cons_of_pos hpe, get?_cons, get?_cons, ih hes]
      · have hne : e.1.equal key = false := Bool.eq_false_iff.mpr fun h => hpe (he h)
        rw [List.filter_cons_of_neg hpe, get?_cons, hne, ih hes]
        rfl

namespace Change

def key : Change → Expr
  | .set key _ => key
  | .erase key => key

def Keyed (c : Change) : Prop := c.key.Keyed ∧ ∀ x ∈ c.parts, x.Keyed

def Built (captures : Bool) (c : Change) : Prop :=
  c.key.Built captures ∧ ∀ x ∈ c.parts, x.Built captures

theorem Built.keyed {captures : Bool} {c : Change} (h : c.Built captures) : c.Keyed :=
  ⟨h.1.keyed, fun x hx => (h.2 x hx).keyed⟩

end Change

theorem Keyed.tail {e : Expr × Expr} {es : Entries} (h : Keyed (e :: es)) : es.Keyed :=
  ⟨(List.pairwise_cons.mp h.distinct).2, (List.forall_mem_cons.mp h.keys).2,
    (List.forall_mem_cons.mp h.values).2⟩

theorem get?_set {es : Entries} (h : es.Keyed) {k key : Expr} (hk : k.Keyed) (hkey : key.Keyed)
    (value : Expr) :
    (es.set k value).get? key = if k.equal key then some value else es.get? key := by
  induction es with
  | nil => rw [set, get?_cons]
  | cons e es ih =>
      have he := h.keys e List.mem_cons_self
      rw [set]
      by_cases hek : e.1.equal k = true
      · rw [if_pos hek, get?_cons, get?_cons, Expr.equal_congr he hk hkey hek]
        split <;> rfl
      · rw [if_neg hek, get?_cons, get?_cons, ih h.tail]
        by_cases hekey : e.1.equal key = true
        · have hne : k.equal key = false := by
            rw [Expr.equal_symm hk hkey, ← Expr.equal_congr he hkey hk hekey]
            simpa using hek
          simp [hne]
        · simp [hekey]

theorem get?_erase {es : Entries} (h : es.Keyed) {k key : Expr} (hk : k.Keyed)
    (hkey : key.Keyed) : (es.erase k).get? key = if k.equal key then none else es.get? key := by
  induction es with
  | nil => simp [erase, get?_eq_none_iff]
  | cons e es ih =>
      have he := h.keys e List.mem_cons_self
      by_cases hek : e.1.equal k = true
      · have herase : erase (e :: es) k = es := by simp [erase, hek]
        rw [herase, get?_cons, Expr.equal_congr he hk hkey hek]
        by_cases hkkey : k.equal key = true
        · -- No other key is equal to the one that is removed.
          have hnone : get? es key = none := by
            refine get?_eq_none_iff.mpr fun f hf => Bool.eq_false_iff.mpr fun hfkey => ?_
            have hfk := h.keys f (List.mem_cons_of_mem e hf)
            have hef := (Expr.equal_iff_same he hk).mp hek
            have hke := (Expr.equal_iff_same hk hkey).mp hkkey
            have hfe := (Expr.equal_iff_same hfk hkey).mp hfkey
            exact (List.pairwise_cons.mp h.distinct).1 f hf (hef.trans (hke.trans hfe.symm))
          simp [hkkey, hnone]
        · simp [hkkey]
      · have herase : erase (e :: es) k = e :: erase es k := by simp [erase, hek]
        rw [herase, get?_cons, get?_cons, ih h.tail]
        by_cases hekey : e.1.equal key = true
        · have hne : k.equal key = false := by
            rw [Expr.equal_symm hk hkey, ← Expr.equal_congr he hkey hk hekey]
            simpa using hek
          simp [hne, hekey]
        · simp [hekey]

theorem changed_concat (changes : List Change) (c : Change) :
    changed (changes ++ [c]) = c.apply (changed changes) := by
  rw [changed, changed, List.foldl_append]
  rfl

/-- The value that was set last for an equal key, with no such key set or removed afterwards. -/
def LastSet (key value : Expr) (changes : List Change) : Prop :=
  ∃ before k after, changes = before ++ .set k value :: after ∧ k.equal key = true ∧
    ∀ c ∈ after, c.key.equal key = false

theorem not_lastSet_nil (key value : Expr) : ¬LastSet key value [] := by
  rintro ⟨before, k, after, h, _⟩
  simp at h

theorem lastSet_concat {key value : Expr} {changes : List Change} {c : Change} :
    LastSet key value (changes ++ [c]) ↔
      if c.key.equal key then ∃ k, c = .set k value else LastSet key value changes := by
  constructor
  · rintro ⟨before, k, after, heq, hk, hafter⟩
    rcases List.eq_nil_or_concat after with rfl | ⟨after, c', rfl⟩
    · obtain ⟨_, hc⟩ := List.append_inj' heq rfl
      obtain rfl : c = .set k value := by simpa using hc
      rw [if_pos (show (Change.set k value).key.equal key = true from hk)]
      exact ⟨k, rfl⟩
    · rw [List.concat_eq_append, ← List.cons_append, ← List.append_assoc] at heq
      obtain ⟨hchanges, hc⟩ := List.append_inj' heq rfl
      obtain rfl : c = c' := by simpa using hc
      simp only [List.concat_eq_append, List.forall_mem_append, List.forall_mem_singleton] at hafter
      rw [if_neg (by simp [hafter.2])]
      exact ⟨before, k, after, hchanges, hk, hafter.1⟩
  · intro h
    by_cases hc : c.key.equal key = true
    · rw [if_pos hc] at h
      obtain ⟨k, rfl⟩ := h
      exact ⟨changes, k, [], rfl, hc, by simp⟩
    · rw [if_neg hc] at h
      obtain ⟨before, k, after, rfl, hk, hafter⟩ := h
      refine ⟨before, k, after ++ [c], by simp, hk, ?_⟩
      simpa [or_imp, forall_and] using And.intro hafter (Bool.eq_false_iff.mpr hc)

theorem get?_changed_iff {changes : List Change} (h : ∀ c ∈ changes, c.Keyed) {key : Expr}
    (hkey : key.Keyed) (value : Expr) :
    (changed changes).get? key = some value ↔ LastSet key value changes := by
  induction changes using List.reverseRecOn with
  | nil => simp [changed, get?, not_lastSet_nil]
  | append_singleton changes c ih =>
      obtain ⟨hchanges, hc⟩ : (∀ c ∈ changes, c.Keyed) ∧ c.Keyed := by
        simpa [or_imp, forall_and] using h
      have hkeyed := keyed_changed fun c hc => (hchanges c hc).2
      rw [changed_concat, lastSet_concat]
      cases c with
      | set k v =>
          have hk : k.Keyed := hc.1
          rw [Change.apply, get?_set hkeyed hk hkey, Change.key]
          by_cases hequal : k.equal key = true
          · simp [hequal]
          · rw [if_neg hequal, if_neg hequal]
            exact ih hchanges
      | erase k =>
          have hk : k.Keyed := hc.1
          rw [Change.apply, get?_erase hkeyed hk hkey, Change.key]
          by_cases hequal : k.equal key = true
          · simp [hequal]
          · rw [if_neg hequal, if_neg hequal]
            exact ih hchanges

variable {nameHash : String → UInt32}

/-- The entries of a hash table: a change looks only at those with the hash code of its key. -/
def bucketed (nameHash : String → UInt32) (changes : List Change) : UInt32 → Entries :=
  changes.foldl (fun table c => Function.update table (c.key.hash nameHash)
    (c.apply (table (c.key.hash nameHash)))) fun _ => []

theorem filter_hash_set {es : Entries} {k : Expr} (value : Expr) (code : UInt32)
    (h : ∀ e ∈ es, e.1.equal k = true → e.1.hash nameHash = k.hash nameHash) :
    (es.set k value).filter (fun e => e.1.hash nameHash == code) =
      if k.hash nameHash = code then set k value (es.filter fun e => e.1.hash nameHash == code)
      else es.filter fun e => e.1.hash nameHash == code := by
  induction es with
  | nil => by_cases hcode : k.hash nameHash = code <;> simp [set, hcode]
  | cons e es ih =>
      obtain ⟨he, hes⟩ := List.forall_mem_cons.mp h
      rw [set]
      by_cases hek : e.1.equal k = true
      · rw [if_pos hek]
        by_cases hcode : k.hash nameHash = code <;> simp [set, hcode, hek, he hek]
      · rw [if_neg hek]
        by_cases hcode : k.hash nameHash = code <;>
          by_cases hecode : e.1.hash nameHash = code <;> simp_all [set]

theorem filter_hash_erase {es : Entries} {k : Expr} (code : UInt32)
    (h : ∀ e ∈ es, e.1.equal k = true → e.1.hash nameHash = k.hash nameHash) :
    (es.erase k).filter (fun e => e.1.hash nameHash == code) =
      if k.hash nameHash = code then erase (es.filter fun e => e.1.hash nameHash == code) k
      else es.filter fun e => e.1.hash nameHash == code := by
  induction es with
  | nil => simp [erase]
  | cons e es ih =>
      obtain ⟨he, hes⟩ := List.forall_mem_cons.mp h
      have ih := ih hes
      simp only [erase] at ih ⊢
      by_cases hek : e.1.equal k = true
      · by_cases hcode : k.hash nameHash = code <;> simp [hcode, hek, he hek]
      · by_cases hcode : k.hash nameHash = code <;>
          by_cases hecode : e.1.hash nameHash = code <;> simp_all

theorem filter_hash_apply {es : Entries} {c : Change} (code : UInt32)
    (h : ∀ e ∈ es, e.1.equal c.key = true → e.1.hash nameHash = c.key.hash nameHash) :
    (c.apply es).filter (fun e => e.1.hash nameHash == code) =
      if c.key.hash nameHash = code then c.apply (es.filter fun e => e.1.hash nameHash == code)
      else es.filter fun e => e.1.hash nameHash == code := by
  cases c with
  | set k value => exact filter_hash_set value code h
  | erase k => exact filter_hash_erase code h

theorem bucketed_concat (changes : List Change) (c : Change) (code : UInt32) :
    bucketed nameHash (changes ++ [c]) code =
      if c.key.hash nameHash = code then c.apply (bucketed nameHash changes code)
      else bucketed nameHash changes code := by
  simp only [bucketed, List.foldl_append, List.foldl_cons, List.foldl_nil, Function.update_apply]
  by_cases hcode : c.key.hash nameHash = code
  · subst hcode
    simp
  · rw [if_neg (Ne.symm hcode), if_neg hcode]

theorem bucketed_eq_filter {changes : List Change} (h : ∀ c ∈ changes, c.Keyed) (code : UInt32) :
    bucketed nameHash changes code =
      (changed changes).filter fun e => e.1.hash nameHash == code := by
  induction changes using List.reverseRecOn with
  | nil => rfl
  | append_singleton changes c ih =>
      obtain ⟨hchanges, hc⟩ : (∀ c ∈ changes, c.Keyed) ∧ c.Keyed := by
        simpa [or_imp, forall_and] using h
      have hkeyed := keyed_changed fun c hc => (hchanges c hc).2
      have hhash : ∀ e ∈ changed changes, e.1.equal c.key = true →
          e.1.hash nameHash = c.key.hash nameHash := fun e he hek =>
        ((Expr.equal_iff_same (hkeyed.keys e he) hc.1).mp hek).hash_eq
      rw [changed_concat, filter_hash_apply code hhash, bucketed_concat, ih hchanges]

structure FiniteMap (nameHash : String → UInt32) (changes : List Change) (es : Entries) : Prop where
  apart : es.Pairwise fun e f => e.1.equal f.1 = false
  found {key : Expr} (hkey : key.Keyed) (value : Expr) :
    es.get? key = some value ↔ LastSet key value changes
  hashed {key : Expr} (hkey : key.Keyed) :
    (bucketed nameHash changes (key.hash nameHash)).get? key = es.get? key
  /-- There are as many entries as keys with a value, counted up to equality. -/
  counted {keys : List Expr} (hkeys : ∀ k ∈ keys, k.Keyed)
    (hapart : keys.Pairwise fun k l => k.equal l = false)
    (hcover : ∀ key : Expr, key.Keyed →
      ((es.get? key).isSome ↔ ∃ k ∈ keys, k.equal key = true)) : keys.length = es.length
  listed : (Expr.sortEntries es).Perm es
  once : (Expr.sortEntries es).Nodup
  ascending : (Expr.sortEntries es).Pairwise fun e f =>
    Text.bytes e.1.text ≤ Text.bytes f.1.text

theorem isSome_get?_iff {es : Entries} {key : Expr} :
    (es.get? key).isSome ↔ ∃ e ∈ es, e.1.equal key = true := by
  simp [get?]

theorem Keyed.length_eq {es : Entries} (h : es.Keyed) {keys : List Expr}
    (hkeys : ∀ k ∈ keys, k.Keyed) (hapart : keys.Pairwise fun k l => k.equal l = false)
    (hcover : ∀ key : Expr, key.Keyed →
      ((es.get? key).isSome ↔ ∃ k ∈ keys, k.equal key = true)) : keys.length = es.length := by
  have hdistinct : keys.Pairwise fun k l => ¬k.Same l := by
    refine hapart.imp_of_mem fun {k l} hk hl hkl hs => ?_
    rw [(Expr.equal_iff_same (hkeys k hk) (hkeys l hl)).mpr hs] at hkl
    cases hkl
  have hle : keys.length ≤ (es.map Prod.fst).length := by
    refine Expr.length_le_of_same hdistinct fun k hk => ?_
    have hself : k.equal k = true := (Expr.equal_iff_same (hkeys k hk) (hkeys k hk)).mpr (.refl k)
    obtain ⟨e, he, hek⟩ := isSome_get?_iff.mp ((hcover k (hkeys k hk)).mpr ⟨k, hk, hself⟩)
    exact ⟨e.1, List.mem_map_of_mem he, (Expr.equal_iff_same (h.keys e he) (hkeys k hk)).mp hek⟩
  have hge : (es.map Prod.fst).length ≤ keys.length := by
    refine Expr.length_le_of_same (List.pairwise_map.mpr h.distinct) ?_
    intro key hkey
    obtain ⟨e, he, rfl⟩ := List.mem_map.mp hkey
    have hek := h.keys e he
    have hself : e.1.equal e.1 = true := (Expr.equal_iff_same hek hek).mpr (.refl e.1)
    obtain ⟨k, hk, hke⟩ := (hcover e.1 hek).mp (isSome_get?_iff.mpr ⟨e, he, hself⟩)
    exact ⟨k, hk, (Expr.equal_iff_same (hkeys k hk) hek).mp hke⟩
  rw [List.length_map] at hle hge
  exact Nat.le_antisymm hle hge

theorem finiteMap_changed (nameHash : String → UInt32) {changes : List Change}
    (h : ∀ c ∈ changes, c.Keyed) : FiniteMap nameHash changes (changed changes) := by
  have hkeyed := keyed_changed fun c hc => (h c hc).2
  refine ⟨?_, get?_changed_iff h, ?_, hkeyed.length_eq, Expr.sortEntries_perm _, ?_,
    Expr.sortEntries_ordered _⟩
  · refine hkeyed.distinct.imp_of_mem fun {e f} he hf hef => Bool.eq_false_iff.mpr fun hequal => ?_
    exact hef ((Expr.equal_iff_same (hkeyed.keys e he) (hkeyed.keys f hf)).mp hequal)
  · intro key hkey
    rw [bucketed_eq_filter h]
    refine get?_filter fun e he hek => ?_
    simpa using ((Expr.equal_iff_same (hkeyed.keys e he) hkey).mp hek).hash_eq
  · exact (Expr.sortEntries_perm _).nodup_iff.mpr hkeyed.distinct.nodup

/-- Maps made one after the other, each by a change of an earlier one, the first of which is empty. -/
def versions (history : List (Nat × Change)) : List Entries :=
  history.foldl (fun made step => made ++ [step.2.apply (made.getD step.1 [])]) [[]]

def lineages (history : List (Nat × Change)) : List (List Change) :=
  history.foldl (fun made step => made ++ [made.getD step.1 [] ++ [step.2]]) [[]]

theorem versions_concat (history : List (Nat × Change)) (step : Nat × Change) :
    versions (history ++ [step]) =
      versions history ++ [step.2.apply ((versions history).getD step.1 [])] := by
  rw [versions, List.foldl_append]
  rfl

theorem lineages_concat (history : List (Nat × Change)) (step : Nat × Change) :
    lineages (history ++ [step]) =
      lineages history ++ [(lineages history).getD step.1 [] ++ [step.2]] := by
  rw [lineages, List.foldl_append]
  rfl

theorem versions_eq_map (history : List (Nat × Change)) :
    versions history = (lineages history).map changed := by
  induction history using List.reverseRecOn with
  | nil => rfl
  | append_singleton history step ih =>
      have hbase : ((lineages history).map changed).getD step.1 (changed []) =
          changed ((lineages history).getD step.1 []) := by
        rw [List.getD_eq_getElem?_getD, List.getD_eq_getElem?_getD, List.getElem?_map, Option.getD_map]
      rw [versions_concat, lineages_concat, List.map_append, List.map_singleton, changed_concat, ih,
        ← hbase]
      rfl

theorem versions_prefix (history later : List (Nat × Change)) :
    versions history <+: versions (history ++ later) := by
  induction later using List.reverseRecOn with
  | nil => simp
  | append_singleton later step ih =>
      rw [← List.append_assoc, versions_concat]
      exact ih.trans (List.prefix_append _ _)

theorem mem_of_mem_lineages {history : List (Nat × Change)} {changes : List Change}
    (h : changes ∈ lineages history) : ∀ c ∈ changes, ∃ step ∈ history, step.2 = c := by
  induction history using List.reverseRecOn generalizing changes with
  | nil =>
      obtain rfl : changes = [] := by simpa [lineages] using h
      simp
  | append_singleton history step ih =>
      have holder {changes : List Change} (h : changes ∈ lineages history) :
          ∀ c ∈ changes, ∃ step' ∈ history ++ [step], step'.2 = c := by
        intro c hc
        obtain ⟨step', hstep', rfl⟩ := ih h c hc
        exact ⟨step', List.mem_append_left _ hstep', rfl⟩
      rw [lineages_concat] at h
      rcases List.mem_append.mp h with h | h
      · exact holder h
      · obtain rfl := List.mem_singleton.mp h
        intro c hc
        rcases List.mem_append.mp hc with hc | hc
        · rw [List.getD_eq_getElem?_getD] at hc
          cases hbase : (lineages history)[step.1]? with
          | none => simp [hbase] at hc
          | some base =>
              rw [hbase] at hc
              exact holder (List.mem_of_getElem? hbase) c hc
        · exact ⟨step, by simp, (List.mem_singleton.mp hc).symm⟩

def pairs : List Expr → List (Expr × Expr)
  | k :: v :: rest => (k, v) :: pairs rest
  | _ => []

theorem flatMap_pairs {values : List Expr} (h : values.length % 2 = 0) :
    (pairs values).flatMap (fun p => [p.1, p.2]) = values := by
  fun_induction pairs values with
  | case1 k v rest ih =>
      have hrest : rest.length % 2 = 0 := by
        simp only [List.length_cons] at h
        omega
      simp [ih hrest]
  | case2 values hshort =>
      rcases values with _ | ⟨k, _ | ⟨v, rest⟩⟩
      · rfl
      · simp at h
      · exact absurd rfl (hshort k v rest)

theorem setAll_eq_foldl (es : Entries) (values : List Expr) :
    es.setAll values = ((pairs values).map fun p => Change.set p.1 p.2).foldl Change.apply es := by
  fun_induction setAll es values with
  | case1 es k v rest ih => exact ih
  | case2 values es hshort =>
      rcases values with _ | ⟨k, _ | ⟨v, rest⟩⟩
      · rfl
      · rfl
      · exact absurd rfl (hshort k v rest)

end Entries

end SmallLisp
