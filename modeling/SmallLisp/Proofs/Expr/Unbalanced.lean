import SmallLisp.Proofs.Expr.Blocks

namespace SmallLisp

namespace Form

variable {file : Option FileRef}

theorem bind_eq_error {α β : Type} {x : Except ReadError α} {f : α → Except ReadError β}
    {e : ReadError} : x >>= f = .error e ↔ x = .error e ∨ ∃ a, x = .ok a ∧ f a = .error e := by
  cases x with
  | error e' => simp [bind, Except.bind]
  | ok a => simp [bind, Except.bind]

/-- How many items neighbouring forms are read as: shorthand belongs to the form behind it, and stands for
itself only at the end. -/
def itemCount (fs : List Form) : Nat :=
  fs.countP (fun f => !f.isShorthand) + if fs.getLast?.any isShorthand then 1 else 0

theorem itemCount_cons {f : Form} {fs : List Form} (h : f.isShorthand = false ∨ fs = []) :
    itemCount (f :: fs) = itemCount fs + 1 := by
  cases fs with
  | nil => cases hf : f.isShorthand <;> simp [itemCount, hf]
  | cons g gs =>
      have hf : f.isShorthand = false := h.resolve_right (List.cons_ne_nil g gs)
      simp only [itemCount, List.countP_cons (a := f), hf, List.getLast?_cons_cons]
      simp only [Bool.not_false, if_true]
      omega

theorem itemCount_shorthand {f : Form} (h : f.isShorthand = true) (g : Form) (gs : List Form) :
    itemCount (f :: g :: gs) = itemCount (g :: gs) := by
  simp only [itemCount, List.countP_cons (a := f), h, List.getLast?_cons_cons]
  rfl

theorem length_of_readItems {fs : List Form} {items : List Expr} (h : readItems file fs = .ok items) :
    items.length = itemCount fs := by
  induction fs generalizing items with
  | nil =>
      cases h
      rfl
  | cons f fs ih =>
      by_cases hs : f.isShorthand = false ∨ fs = []
      · rw [readItems_cons file hs, bind_eq_ok] at h
        obtain ⟨item, _, h⟩ := h
        obtain ⟨rest, hrest, ⟨⟩⟩ := bind_eq_ok.mp h
        rw [itemCount_cons hs, List.length_cons, ih hrest]
      · obtain ⟨site, param, g, gs, rfl, rfl⟩ := exists_eq_of_shorthand_block hs
        rw [readItems, bind_eq_ok] at h
        obtain ⟨x, _, h⟩ := h
        obtain ⟨rest, hrest, ⟨⟩⟩ := bind_eq_ok.mp h
        rw [itemCount_shorthand rfl, List.length_modifyHead, ih hrest]

def Unbalanced : Form → Prop
  | .group .brace _ _ children => itemCount children % 2 = 1
  | _ => False

instance : DecidablePred Unbalanced
  | .group .brace _ _ children => inferInstanceAs (Decidable (itemCount children % 2 = 1))
  | .group .paren _ _ _ => isFalse id
  | .group .square _ _ _ => isFalse id
  | .int _ _ => isFalse id
  | .symbol _ _ => isFalse id
  | .marked _ _ _ => isFalse id
  | .ascription _ _ _ => isFalse id

theorem head?_readErrors_nil (file : Option FileRef) : (readErrors file []).head? = none := rfl

theorem head?_readErrors_cons {f : Form} {fs : List Form} {e : ReadError} :
    (readErrors file (f :: fs)).head? = some e ↔ f.read file = .error e ∨
      ∃ x, f.read file = .ok x ∧ (readErrors file fs).head? = some e := by
  cases hf : f.read file with
  | error e' => simp [readErrors, hf]
  | ok x => simp [readErrors, hf]

theorem readErrors_eq_nil {fs : List Form} :
    readErrors file fs = [] ↔ ∀ f ∈ fs, ∃ x, f.read file = .ok x := by
  rw [readErrors, List.filterMap_eq_nil_iff]
  refine forall₂_congr fun f _ => ?_
  cases f.read file with
  | ok x => simp
  | error e => simp

theorem readItems_eq_error {fs : List Form} {e : ReadError} :
    readItems file fs = .error e ↔ (readErrors file fs).head? = some e := by
  induction fs with
  | nil => simp [readItems, head?_readErrors_nil]
  | cons f fs ih =>
      by_cases hs : f.isShorthand = false ∨ fs = []
      · simp [readItems_cons file hs, bind_eq_error, head?_readErrors_cons, ih]
      · obtain ⟨site, param, g, gs, rfl, rfl⟩ := exists_eq_of_shorthand_block hs
        rw [head?_readErrors_cons, read, readItems]
        simp [bind_eq_error, bind_eq_ok, ih]

theorem readErrors_of_readItems {fs : List Form} {items : List Expr}
    (h : readItems file fs = .ok items) : readErrors file fs = [] := by
  cases herrors : readErrors file fs with
  | nil => rfl
  | cons e es =>
      have herror := readItems_eq_error.mpr (congrArg List.head? herrors)
      rw [h] at herror
      cases herror

theorem exists_items {fs : List Form} (h : readErrors file fs = []) :
    ∃ items, readItems file fs = .ok items := by
  cases hitems : readItems file fs with
  | ok items => exact ⟨items, rfl⟩
  | error e =>
      have herror := readItems_eq_error.mp hitems
      rw [h] at herror
      cases herror

theorem read_brace_eq_error {opener closer : Span} {children : List Form} {e : ReadError} :
    read file (.group .brace opener closer children) = .error e ↔
      (readErrors file children).head? = some e ∨
        (readErrors file children = [] ∧ itemCount children % 2 = 1 ∧
          e = .unbalancedMap (.group .brace opener closer children)) := by
  rw [read, bind_eq_error, readItems_eq_error]
  refine or_congr_right ⟨?_, ?_⟩
  · rintro ⟨items, hitems, h⟩
    have hcount := length_of_readItems hitems
    split at h
    · cases h
    · next hodd =>
        cases h
        exact ⟨readErrors_of_readItems hitems, by omega, rfl⟩
  · rintro ⟨herrors, hodd, rfl⟩
    obtain ⟨items, hitems⟩ := exists_items herrors
    have hcount := length_of_readItems hitems
    exact ⟨items, hitems, if_neg (by omega)⟩

/-- Why a form cannot be read: because of the first of its parts that cannot be read, or else because it
is itself a map in which a key has no value. -/
theorem read_eq_error {f : Form} {e : ReadError} : f.read file = .error e ↔
    (readErrors file f.parts).head? = some e ∨
      (readErrors file f.parts = [] ∧ f.Unbalanced ∧ e = .unbalancedMap f) := by
  cases f with
  | int value site => simp [read, parts, head?_readErrors_nil, Unbalanced]
  | symbol text site => simp [read, parts, head?_readErrors_nil, Unbalanced]
  | marked mark site operand =>
      simp [read, parts, bind_eq_error, head?_readErrors_cons, head?_readErrors_nil, Unbalanced]
  | ascription site type value =>
      simp [read, parts, bind_eq_error, head?_readErrors_cons, head?_readErrors_nil, Unbalanced]
  | group kind opener closer children =>
      cases kind with
      | square => simp [read, parts, bind_eq_error, readItems_eq_error, Unbalanced]
      | brace => exact read_brace_eq_error
      | paren =>
          by_cases hs : ∀ f ∈ children.head?, f.isShorthand = false
          · simp [read_paren file _ _ hs, parts, bind_eq_error, readItems_eq_error, Unbalanced]
          · obtain ⟨site, param, rest, rfl⟩ := exists_eq_of_shorthand_head hs
            simp [read, parts, bind_eq_error, bind_eq_ok, readItems_eq_error, head?_readErrors_cons,
              Unbalanced]

theorem exists_read_iff {f : Form} : (∃ x, f.read file = .ok x) ↔
    (∀ p ∈ f.parts, ∃ x, p.read file = .ok x) ∧ ¬f.Unbalanced := by
  rw [← readErrors_eq_nil]
  cases hf : f.read file with
  | error e =>
      refine iff_of_false (by simp) ?_
      rintro ⟨hparts, hbalanced⟩
      rcases read_eq_error.mp hf with herror | ⟨_, hunbalanced, _⟩
      · simp [hparts] at herror
      · exact hbalanced hunbalanced
  | ok x =>
      have hno (e : ReadError) : ¬f.read file = .error e := by simp [hf]
      refine iff_of_true ⟨x, rfl⟩ ?_
      have hparts : readErrors file f.parts = [] := by
        cases herrors : readErrors file f.parts with
        | nil => rfl
        | cons e es => exact absurd (read_eq_error.mpr (.inl (by rw [herrors]; rfl))) (hno e)
      exact ⟨hparts, fun hunbalanced => hno _ (read_eq_error.mpr (.inr ⟨hparts, hunbalanced, rfl⟩))⟩

theorem exists_read_iff_forall {f : Form} : (∃ x, f.read file = .ok x) ↔
    ∀ g : Form, g.PartOf f → ¬g.Unbalanced := by
  have hparts : (∀ p ∈ f.parts, ∃ x, p.read file = .ok x) ↔
      ∀ p ∈ f.parts, ∀ g : Form, g.PartOf p → ¬g.Unbalanced :=
    forall₂_congr fun p hp => exists_read_iff_forall
  rw [exists_read_iff, hparts]
  constructor
  · rintro ⟨hinside, hf⟩ g hg
    rcases partOf_iff.mp hg with rfl | ⟨p, hp, hg⟩
    · exact hf
    · exact hinside p hp g hg
  · intro hall
    exact ⟨fun p hp g hg => hall g (partOf_iff.mpr (.inr ⟨p, hp, hg⟩)), hall f .whole⟩
termination_by sizeOf f
decreasing_by exact sizeOf_lt_of_mem_parts hp

theorem exists_unbalanced_of_read {f : Form} {e : ReadError} (h : f.read file = .error e) :
    ∃ g : Form, e = .unbalancedMap g ∧ g.PartOf f ∧ g.Unbalanced ∧
      ∀ p ∈ g.parts, ∀ inner : Form, inner.PartOf p → ¬inner.Unbalanced := by
  rcases read_eq_error.mp h with hfirst | ⟨hparts, hunbalanced, rfl⟩
  · -- The error is that of a part.
    obtain ⟨p, hp, herror⟩ := List.mem_filterMap.mp (List.mem_of_mem_head? hfirst)
    have hread : p.read file = .error e := by
      cases hp : p.read file with
      | ok x => simp [hp] at herror
      | error e' => simpa [hp] using herror
    obtain ⟨g, rfl, hg, hrest⟩ := exists_unbalanced_of_read hread
    exact ⟨g, rfl, partOf_iff.mpr (.inr ⟨p, hp, hg⟩), hrest⟩
  · refine ⟨f, rfl, .whole, hunbalanced, fun p hp => ?_⟩
    exact exists_read_iff_forall.mp (readErrors_eq_nil.mp hparts p hp)
termination_by sizeOf f
decreasing_by exact sizeOf_lt_of_mem_parts hp

/-- A form cannot be read exactly if a key lacks its value in some map in it, by the number of children of
that map that are no shorthand and whether shorthand is the last of them. The error then names such a map,
one that holds no other. -/
theorem unreadable_iff_unbalanced (file : Option FileRef) (f : Form) :
    ((∃ e, f.read file = .error e) ↔ ∃ g : Form, g.PartOf f ∧ g.Unbalanced) ∧
      ∀ e, f.read file = .error e →
        ∃ g : Form, e = .unbalancedMap g ∧ g.PartOf f ∧ g.Unbalanced ∧
          ∀ p ∈ g.parts, ∀ inner : Form, inner.PartOf p → ¬inner.Unbalanced := by
  refine ⟨⟨?_, ?_⟩, fun e => exists_unbalanced_of_read⟩
  · rintro ⟨e, he⟩
    obtain ⟨g, _, hg, hunbalanced, _⟩ := exists_unbalanced_of_read he
    exact ⟨g, hg, hunbalanced⟩
  · rintro ⟨g, hg, hunbalanced⟩
    cases hf : f.read file with
    | error e => exact ⟨e, rfl⟩
    | ok x => exact absurd hunbalanced (exists_read_iff_forall.mp ⟨x, hf⟩ g hg)

theorem unreadable_iff_unbalanced_of_nested_map :
    -- The text `{k {\x x}}`: both maps have two children, but those of the inner one are read as one.
    let x : Form := .symbol "x" .nowhere
    let inner : Form := .group .brace .nowhere .nowhere [.marked .lambda .nowhere x, x]
    let f : Form := .group .brace .nowhere .nowhere [.symbol "k" .nowhere, inner]
    f.read none = .error (.unbalancedMap inner) ∧ inner.PartOf f ∧ inner.Unbalanced ∧
      ¬f.Unbalanced ∧ ∀ p ∈ inner.parts, ∀ g : Form, g.PartOf p → ¬g.Unbalanced := by
  intro x inner f
  have herror : f.read none = .error (.unbalancedMap inner) := rfl
  obtain ⟨g, hg, hpart, hunbalanced, hinside⟩ := (unreadable_iff_unbalanced none f).2 _ herror
  obtain rfl := ReadError.unbalancedMap.inj hg
  exact ⟨herror, hpart, hunbalanced, by decide, hinside⟩

end Form

end SmallLisp
