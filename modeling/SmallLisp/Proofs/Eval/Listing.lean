import SmallLisp.Eval.Env
import SmallLisp.Proofs.Text.Order
import SmallLisp.Session

namespace SmallLisp

theorem Text.bytes_lt_of_lt {s t : String} (h : s < t) : bytes s < bytes t := by
  rw [← List.not_le, ← le_iff_bytes_le, not_le]
  exact h

theorem Text.mergeSort_ascending {texts : List String} (h : texts.Nodup) :
    (texts.mergeSort fun s t => s ≤ t).Pairwise (· < ·) := by
  have hnodup : (texts.mergeSort fun s t => s ≤ t).Nodup :=
    (List.mergeSort_perm texts _).nodup_iff.mpr h
  exact (mergeSort_ordered id texts).imp₂ (fun _ _ hle hne => lt_of_le_of_ne hle hne) hnodup

namespace Bindings

variable {b : Bindings} {name : String}

theorem get?_isSome_iff : (b.get? name).isSome ↔ name ∈ b.map (·.1) := by
  induction b with
  | nil => simp [get?]
  | cons e es ih =>
      rw [get?_cons, List.map_cons, List.mem_cons, ← ih]
      split
      · next heq => simp [heq]
      · next hne => simp [hne]

theorem mem_names_iff : name ∈ b.names ↔ (b.get? name).isSome := by
  rw [get?_isSome_iff, names, List.mem_mergeSort, List.mem_eraseDups]

theorem nodup_eraseDups (names : List String) : names.eraseDups.Nodup := by
  cases names with
  | nil => exact List.nodup_nil
  | cons name names =>
      rw [List.eraseDups_cons, List.nodup_cons]
      exact ⟨by simp, nodup_eraseDups _⟩
termination_by names.length
decreasing_by
  have hle := List.length_filter_le (fun other => !other == name) names
  simp only [List.length_cons]
  omega

theorem names_ascending (b : Bindings) : b.names.Pairwise (· < ·) :=
  Text.mergeSort_ascending (nodup_eraseDups _)

end Bindings

namespace Env

/-- What is listed is what is bound: the names are in strictly ascending order, they are those that can be
looked up, and each of them is shown once, with what it is bound to. -/
structure Listed (env : Env) : Prop where
  ascending : env.names.Pairwise fun s t => Text.bytes s < Text.bytes t
  mem_iff : ∀ name, name ∈ env.names ↔ (env.lookup? name).isSome
  shown : ∃ entries : List (String × Expr), entries.map (·.1) = env.names ∧
    (∀ e ∈ entries, env.lookup? e.1 = some e.2) ∧
    Session.stackListing env =
      s!"depth {env.depth}\n" ++ String.join (entries.map fun e => s!"{e.1} = {e.2.text}\n")

theorem exists_entries (env : Env) {names : List String} (h : ∀ name ∈ names, (env.lookup? name).isSome) :
    ∃ entries : List (String × Expr), entries.map (·.1) = names ∧
      ∀ e ∈ entries, env.lookup? e.1 = some e.2 := by
  induction names with
  | nil => exact ⟨[], rfl, by simp⟩
  | cons name names ih =>
      obtain ⟨hname, hnames⟩ := List.forall_mem_cons.mp h
      obtain ⟨value, hvalue⟩ := Option.isSome_iff_exists.mp hname
      obtain ⟨entries, hentries, hbound⟩ := ih hnames
      exact ⟨(name, value) :: entries, by rw [List.map_cons, hentries],
        List.forall_mem_cons.mpr ⟨hvalue, hbound⟩⟩

theorem filterMap_lookup? {env : Env} {entries : List (String × Expr)}
    (h : ∀ e ∈ entries, env.lookup? e.1 = some e.2) (line : String → Expr → String) :
    ((entries.map (·.1)).filterMap fun name => (env.lookup? name).map (line name)) =
      entries.map fun e => line e.1 e.2 := by
  rw [List.filterMap_map, ← List.filterMap_eq_map]
  refine List.filterMap_congr fun e he => ?_
  simp [h e he]

theorem listed (env : Env) : env.Listed where
  ascending := env.current.names_ascending.imp Text.bytes_lt_of_lt
  mem_iff _ := Bindings.mem_names_iff
  shown := by
    obtain ⟨entries, hnames, hbound⟩ :=
      env.exists_entries fun name (hname : name ∈ env.names) => Bindings.mem_names_iff.mp hname
    refine ⟨entries, hnames, hbound, ?_⟩
    rw [Session.stackListing, ← hnames,
      filterMap_lookup? hbound fun name value => s!"{name} = {value.text}\n"]

end Env

end SmallLisp
