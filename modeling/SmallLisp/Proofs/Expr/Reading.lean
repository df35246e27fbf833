import SmallLisp.Expr.Read
import SmallLisp.Proofs.Expr.Bare
import SmallLisp.Proofs.Form.Bare
import SmallLisp.Proofs.Form.Tokens

namespace SmallLisp

def ReadError.bare : ReadError → ReadError
  | .unbalancedMap literal => .unbalancedMap literal.bare

namespace Form

variable {α β γ δ : Type}

def bareRead (g : α → β) : Except ReadError α → Except ReadError β
  | .ok a => .ok (g a)
  | .error e => .error e.bare

theorem bareRead_ok_iff {g : α → β} {a b : α} :
    bareRead g (.ok a) = bareRead g (.ok b) ↔ g a = g b := by
  simp [bareRead]

theorem bareRead_bind {g : α → β} {h : γ → δ} {x y : Except ReadError α}
    {f k : α → Except ReadError γ} (hxy : bareRead g x = bareRead g y)
    (hfk : ∀ a b, g a = g b → bareRead h (f a) = bareRead h (k b)) :
    bareRead h (x >>= f) = bareRead h (y >>= k) := by
  cases x with
  | ok a =>
      cases y with
      | ok b => exact hfk a b (bareRead_ok_iff.mp hxy)
      | error e => simp [bareRead] at hxy
  | error e =>
      cases y with
      | ok b => simp [bareRead] at hxy
      | error e' => simpa [bareRead, bind, Except.bind] using hxy

@[simp] theorem isShorthand_bare (f : Form) : f.bare.isShorthand = f.isShorthand := by
  cases f with
  | marked mark site operand => cases mark <;> rfl
  | _ => rfl

theorem exists_eq_of_isShorthand {f : Form} (h : f.isShorthand = true) :
    ∃ site param, f = .marked .lambda site param := by
  cases f with
  | marked mark site operand =>
      cases mark with
      | lambda => exact ⟨site, operand, rfl⟩
      | _ => cases h
  | _ => cases h

theorem read_paren (file : Option FileRef) (opener closer : Span) {children : List Form}
    (h : ∀ f ∈ children.head?, f.isShorthand = false) :
    read file (.group .paren opener closer children) = readItems file children >>= fun items =>
      .ok (.list items (Provenance.written file (opener.join closer))) := by
  rw [read]
  rintro site param rest rfl
  simp [isShorthand] at h

theorem exists_eq_of_shorthand_head {children : List Form}
    (h : ¬∀ f ∈ children.head?, f.isShorthand = false) :
    ∃ site param rest, children = .marked .lambda site param :: rest := by
  cases children with
  | nil => simp at h
  | cons f rest =>
      obtain ⟨site, param, rfl⟩ := exists_eq_of_isShorthand (by simpa using h)
      exact ⟨site, param, rest, rfl⟩

theorem readItems_cons (file : Option FileRef) {f : Form} {fs : List Form}
    (h : f.isShorthand = false ∨ fs = []) :
    readItems file (f :: fs) = read file f >>= fun item =>
      readItems file fs >>= fun items => .ok (item :: items) := by
  rw [readItems]
  rintro site param g gs rfl rfl
  simp [isShorthand] at h

theorem exists_eq_of_shorthand_block {f : Form} {fs : List Form}
    (h : ¬(f.isShorthand = false ∨ fs = [])) :
    ∃ site param g gs, f = .marked .lambda site param ∧ fs = g :: gs := by
  rw [not_or] at h
  obtain ⟨site, param, rfl⟩ := exists_eq_of_isShorthand (by simpa using h.1)
  obtain ⟨g, gs, rfl⟩ := List.exists_cons_of_ne_nil h.2
  exact ⟨site, param, g, gs, rfl, rfl⟩

theorem mem_readAll_iff {file : Option FileRef} {fs : List Form} {e : Expr} :
    e ∈ readAll file fs ↔ ∃ f ∈ fs, f.read file = .ok e := by
  rw [readAll, List.mem_filterMap]
  refine exists_congr fun f => and_congr_right fun _ => ?_
  cases f.read file <;> simp [Except.toOption]

theorem forall_ok_bind {α β : Type} {P : α → Prop} {Q : β → Prop} {x : Except ReadError α}
    {f : α → Except ReadError β} (hx : ∀ a, x = .ok a → P a) (hf : ∀ a, P a → ∀ b, f a = .ok b → Q b) :
    ∀ b, x >>= f = .ok b → Q b := by
  cases x with
  | error e =>
      intro b hb
      cases hb
  | ok a => exact hf a (hx a rfl)

mutual

theorem read_bare (f : Form) (file file' : Option FileRef) :
    bareRead Expr.bare (f.bare.read file') = bareRead Expr.bare (f.read file) := by
  match f with
  | .int value site => rfl
  | .symbol text site => rfl
  | .marked mark site operand =>
      simp only [bare, read]
      refine bareRead_bind (read_bare operand file file') fun v v' hv => ?_
      simp [bareRead, Expr.bare, hv]
  | .ascription site type value =>
      simp only [bare, read]
      refine bareRead_bind (read_bare value file file') fun v v' hv => ?_
      refine bareRead_bind (read_bare type file file') fun t t' ht => ?_
      simp [bareRead, Expr.bare, hv, ht]
  | .group .square opener closer children =>
      simp only [bare, bareAll_eq_map, read]
      refine bareRead_bind (readItems_bare children file file') fun xs ys hxs => ?_
      simp [bareRead, Expr.bare, hxs]
  | .group .brace opener closer children =>
      simp only [bare, bareAll_eq_map, read]
      refine bareRead_bind (readItems_bare children file file') fun xs ys hxs => ?_
      have hlen : xs.length = ys.length := by simpa using congrArg List.length hxs
      rw [hlen]
      split
      · simp [bareRead, Expr.bare, hxs]
      · simp [bareRead, ReadError.bare, bare, bare_bare]
  | .group .paren opener closer children =>
      by_cases hs : ∀ f ∈ children.head?, f.isShorthand = false
      · have hs' : ∀ f ∈ (children.map bare).head?, f.isShorthand = false := by
          simpa using hs
        rw [bare, bareAll_eq_map, read_paren file' _ _ hs', read_paren file _ _ hs]
        refine bareRead_bind (readItems_bare children file file') fun xs ys hxs => ?_
        simp [bareRead, Expr.bare, hxs]
      · obtain ⟨site, param, rest, rfl⟩ := exists_eq_of_shorthand_head hs
        simp only [bare, bareAll_eq_map, List.map_cons, read]
        refine bareRead_bind (read_bare param file file') fun x x' hx => ?_
        refine bareRead_bind (readItems_bare rest file file') fun xs ys hxs => ?_
        simp [bareRead, Expr.bare, hx, hxs]

theorem readItems_bare (fs : List Form) (file file' : Option FileRef) :
    bareRead (List.map Expr.bare) (readItems file' (fs.map bare)) =
      bareRead (List.map Expr.bare) (readItems file fs) := by
  match fs with
  | [] => rfl
  | f :: fs =>
      by_cases hs : f.isShorthand = false ∨ fs = []
      · have hs' : f.bare.isShorthand = false ∨ fs.map bare = [] := by simpa using hs
        rw [List.map_cons, readItems_cons file' hs', readItems_cons file hs]
        refine bareRead_bind (read_bare f file file') fun x x' hx => ?_
        refine bareRead_bind (readItems_bare fs file file') fun xs ys hxs => ?_
        simp [bareRead, hx, hxs]
      · obtain ⟨site, param, g, gs, rfl, rfl⟩ := exists_eq_of_shorthand_block hs
        simp only [List.map_cons, bare, readItems]
        refine bareRead_bind (read_bare param file file') fun x x' hx => ?_
        refine bareRead_bind (readItems_bare (g :: gs) file file') fun xs ys hxs => ?_
        -- Shorthand takes the first of the items behind it as its body.
        cases xs with
        | nil =>
            obtain rfl : ys = [] := by simpa using hxs.symm
            rfl
        | cons y xs =>
            cases ys with
            | nil => simp at hxs
            | cons z ys =>
                simp only [List.map_cons, List.cons.injEq] at hxs
                simp [bareRead, Expr.bare, hx, hxs]

end

end Form

open Provenance (written)

structure Expr.Structural (file : Option FileRef) (S : Span → Prop) (V : Expr → Prop) : Prop where
  join {s t : Span} : S s → S t → S (s.join t)
  list {items : List Expr} {span : Span} :
    S span → (∀ x ∈ items, V x) → V (.list items (written file span))
  special (kind : Special) {span : Span} : S span → V (.special kind (written file span))
  builder (op : Primitive) {span : Span} : S span → V (.symbol op.name (written file span))

structure Token.Suits (file : Option FileRef) (S : Span → Prop) (V : Expr → Prop) (t : Token) :
    Prop where
  span : S t.span
  number {value : Int64} : t.lexeme = .number value → V (.int value (written file t.span))
  symbol {name : String} : t.lexeme = .symbol name → V (.symbol name (written file t.span))

namespace Form

variable {file : Option FileRef} {S : Span → Prop} {V : Expr → Prop}

theorem span_of_suits (h : Expr.Structural file S V) {f : Form}
    (hf : ∀ t ∈ f.tokens, t.Suits file S V) : S f.span :=
  span_of_tokens h.join fun t ht => (hf t ht).span

theorem blockEnd_of_suits (h : Expr.Structural file S V) {f : Form} {fs : List Form}
    (hfs : ∀ t ∈ allTokens (f :: fs), t.Suits file S V) : S (blockEnd f fs) := by
  induction fs generalizing f with
  | nil => exact span_of_suits h (List.forall_mem_append.mp hfs).1
  | cons g gs ih =>
      obtain ⟨hf, hgs⟩ := List.forall_mem_append.mp hfs
      rw [blockEnd]
      split
      · exact ih hgs
      · exact span_of_suits h hf

mutual

theorem read_structural (h : Expr.Structural file S V) (f : Form)
    (hf : ∀ t ∈ f.tokens, t.Suits file S V) : ∀ e, f.read file = .ok e → V e := by
  match f with
  | .int value site =>
      rintro e ⟨⟩
      exact (hf ⟨.number value, site⟩ (by simp [tokens])).number rfl
  | .symbol name site =>
      rintro e ⟨⟩
      exact (hf ⟨.symbol name, site⟩ (by simp [tokens])).symbol rfl
  | .marked mark site operand =>
      obtain ⟨hsite, hoperand⟩ := List.forall_mem_cons.mp hf
      have hspan := h.join hsite.span (span_of_suits h hoperand)
      rw [read]
      refine forall_ok_bind (read_structural h operand hoperand) fun value hvalue => ?_
      rintro e ⟨⟩
      exact h.list hspan (by simp [h.special _ hsite.span, hvalue])
  | .ascription site type value =>
      obtain ⟨hsite, hrest⟩ := List.forall_mem_cons.mp hf
      obtain ⟨htype, hvalue⟩ := List.forall_mem_append.mp hrest
      have hspan := h.join hsite.span (span_of_suits h hvalue)
      rw [read]
      refine forall_ok_bind (read_structural h value hvalue) fun v hv => ?_
      refine forall_ok_bind (read_structural h type htype) fun t ht => ?_
      rintro e ⟨⟩
      exact h.list hspan (by simp [h.special _ hsite.span, ht, hv])
  | .group kind opener closer children =>
      obtain ⟨hopener, hrest⟩ := List.forall_mem_cons.mp hf
      obtain ⟨hchildren, hcloser⟩ := List.forall_mem_append.mp hrest
      have hspan := h.join hopener.span (hcloser ⟨.closer kind, closer⟩ (by simp)).span
      have hitems := readItems_structural h children hchildren
      cases kind with
      | square =>
          rw [read]
          refine forall_ok_bind hitems fun items hitems => ?_
          rintro e ⟨⟩
          exact h.list hspan (List.forall_mem_cons.mpr ⟨h.builder .list hopener.span, hitems⟩)
      | brace =>
          rw [read]
          refine forall_ok_bind hitems fun items hitems => ?_
          split
          · rintro e ⟨⟩
            exact h.list hspan (List.forall_mem_cons.mpr ⟨h.builder .map hopener.span, hitems⟩)
          · rintro e ⟨⟩
      | paren =>
          by_cases hs : ∀ f ∈ children.head?, f.isShorthand = false
          · rw [read_paren file _ _ hs]
            refine forall_ok_bind hitems fun items hitems => ?_
            rintro e ⟨⟩
            exact h.list hspan hitems
          · obtain ⟨site, param, rest, rfl⟩ := exists_eq_of_shorthand_head hs
            obtain ⟨hlambda, hrest⟩ := List.forall_mem_append.mp hchildren
            obtain ⟨hsite, hparam⟩ := List.forall_mem_cons.mp hlambda
            rw [read]
            refine forall_ok_bind (read_structural h param hparam) fun x hx => ?_
            refine forall_ok_bind (readItems_structural h rest hrest) fun items hitems => ?_
            rintro e ⟨⟩
            exact h.list hspan (List.forall_mem_cons.mpr
              ⟨h.special _ hsite.span, List.forall_mem_cons.mpr ⟨hx, hitems⟩⟩)

theorem readItems_structural (h : Expr.Structural file S V) (fs : List Form)
    (hfs : ∀ t ∈ allTokens fs, t.Suits file S V) :
    ∀ items, readItems file fs = .ok items → ∀ x ∈ items, V x := by
  match fs with
  | [] =>
      rintro items ⟨⟩
      simp
  | f :: fs =>
      obtain ⟨hf, hrest⟩ := List.forall_mem_append.mp hfs
      by_cases hs : f.isShorthand = false ∨ fs = []
      · rw [readItems_cons file hs]
        refine forall_ok_bind (read_structural h f hf) fun x hx => ?_
        refine forall_ok_bind (readItems_structural h fs hrest) fun items hitems => ?_
        rintro all ⟨⟩
        exact List.forall_mem_cons.mpr ⟨hx, hitems⟩
      · obtain ⟨site, param, g, gs, rfl, rfl⟩ := exists_eq_of_shorthand_block hs
        obtain ⟨hsite, hparam⟩ := List.forall_mem_cons.mp hf
        have hspan := h.join (h.join hsite.span (span_of_suits h hparam)) (blockEnd_of_suits h hrest)
        rw [readItems]
        refine forall_ok_bind (read_structural h param hparam) fun x hx => ?_
        refine forall_ok_bind (readItems_structural h (g :: gs) hrest) fun items hitems => ?_
        rintro all ⟨⟩
        cases items with
        | nil => simp
        | cons body items =>
            obtain ⟨hbody, hitems⟩ := List.forall_mem_cons.mp hitems
            refine List.forall_mem_cons.mpr ⟨h.list hspan ?_, hitems⟩
            simp [h.special _ hsite.span, hx, hbody]

end

end Form

end SmallLisp
