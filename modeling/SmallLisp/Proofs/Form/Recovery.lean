import SmallLisp.Proofs.Form.Bare
import Mathlib.Data.List.Infix

namespace SmallLisp

namespace Parser

def Item.isToken : Item → Bool
  | .token _ => true
  | .failure _ => false
  | .fault _ => false

def Item.failure? (opened : Stack Partial) : Item → Option (TokenError × List Partial)
  | .failure cause => some (cause, opened.bottomUp)
  | _ => none

def Event.failure? : Event → Option (TokenError × List Partial)
  | .error (.token cause opened) => some (cause, (ParseError.token cause opened).partials)
  | _ => none

def Event.isStructural : Event → Bool
  | .form _ => true
  | .error e => e.kind ≠ .token
  | .fault _ => false

inductive FromToken : Event → Stack Partial → Prop
  | form (f : Form) (opened : Stack Partial) : FromToken (.form f) opened
  | error {e : ParseError} : e.kind ≠ .token → FromToken (.error e) .empty

theorem FromToken.isStructural {event : Event} {opened : Stack Partial} (h : FromToken event opened) :
    event.isStructural = true := by
  cases h with
  | form => rfl
  | error he => exact decide_eq_true he

theorem FromToken.failure? {event : Event} {opened : Stack Partial} (h : FromToken event opened) :
    event.failure? = none := by
  cases h with
  | form => rfl
  | @error e he =>
      cases e with
      | token => exact absurd rfl he
      | _ => rfl

theorem complete_fromToken {f : Form} {opened : Stack Partial} {event : Event}
    (h : (complete f opened).1 = some event) : FromToken event (complete f opened).2 := by
  obtain ⟨g, _, rfl⟩ := Option.map_eq_some_iff.mp h
  exact .form g _

theorem close_fromToken {kind : Delimiter} {closer : Span} {opened : Stack Partial} {event : Event}
    (h : (close kind closer opened).1 = some event) :
    FromToken event (close kind closer opened).2 := by
  cases opened with
  | nil =>
      cases h
      exact .error nofun
  | cons inner outer =>
      cases inner with
      | group kind' opener children =>
          by_cases hk : kind' = kind
          · simp only [close, hk, if_true] at h ⊢
            exact complete_fromToken h
          · simp only [close, hk, if_false] at h ⊢
            cases h
            exact .error nofun
      | marked mark site =>
          cases h
          exact .error nofun
      | ascription site type =>
          cases h
          exact .error nofun

theorem accept_fromToken {opened : Stack Partial} {t : Token} {event : Event}
    (h : (accept opened t).1 = some event) : FromToken event (accept opened t).2 := by
  obtain ⟨lexeme, span⟩ := t
  cases lexeme with
  | number value => exact complete_fromToken h
  | symbol text => exact complete_fromToken h
  | closer kind => exact close_fromToken h
  | opener kind => cases h
  | sigil s => cases s <;> cases h

theorem feed_of_not_isToken {item : Item} (h : item.isToken = false) (opened : Stack Partial) :
    (feed opened item).2 = opened := by
  cases item with
  | token t => cases h
  | failure cause => rfl
  | fault message => rfl

theorem filter_feed (opened : Stack Partial) (item : Item) :
    (feed opened item).1.toList.filter Event.isStructural =
      if item.isToken then (feed opened item).1.toList else [] := by
  cases item with
  | failure cause => rfl
  | fault message => rfl
  | token t =>
      cases hevent : (feed opened (.token t)).1 with
      | none => rfl
      | some event =>
          have hkept := (accept_fromToken hevent).isStructural
          simp [hkept, Item.isToken]

theorem feedAll_filter (opened : Stack Partial) (items : List Item) :
    feedAll opened (items.filter Item.isToken) =
      ((feedAll opened items).1.filter Event.isStructural, (feedAll opened items).2) := by
  induction items generalizing opened with
  | nil => rfl
  | cons item items ih =>
      have hstep := filter_feed opened item
      cases hitem : item.isToken with
      | true =>
          rw [List.filter_cons_of_pos hitem]
          simp only [feedAll, ih, List.filter_append, hstep, hitem, if_true]
      | false =>
          rw [List.filter_cons_of_neg (by simp [hitem]), ih]
          simp only [feedAll, List.filter_append, hstep, hitem, feed_of_not_isToken hitem]
          rfl

theorem filter_finish (opened : Stack Partial) :
    (finish opened).filter Event.isStructural = finish opened := by
  cases opened <;> rfl

theorem run_filter (opened : Stack Partial) (items : List Item) :
    (run opened items).filter Event.isStructural = run opened (items.filter Item.isToken) := by
  simp only [run_eq_feedAll, feedAll_filter, List.filter_append, filter_finish]

theorem filterMap_feed (opened : Stack Partial) (item : Item) :
    (feed opened item).1.toList.filterMap Event.failure? = (item.failure? opened).toList := by
  cases item with
  | failure cause => rfl
  | fault message => rfl
  | token t =>
      cases hevent : (feed opened (.token t)).1 with
      | none => rfl
      | some event =>
          have hnone := (accept_fromToken hevent).failure?
          simp [hnone, Item.failure?]

theorem run_failures (opened : Stack Partial) (items : List Item) :
    (run opened items).filterMap Event.failure? = (items.inits.zip items).filterMap
      fun z => z.2.failure? (feedAll opened (z.1.filter Item.isToken)).2 := by
  induction items generalizing opened with
  | nil => cases opened <;> rfl
  | cons item items ih =>
      have hfirst : (feedAll opened (List.filter Item.isToken [])).2 = opened := rfl
      have hlater (before : List Item) :
          (feedAll opened ((item :: before).filter Item.isToken)).2 =
            (feedAll (feed opened item).2 (before.filter Item.isToken)).2 := by
        simp only [feedAll_filter, feedAll]
      simp only [run, List.filterMap_append, filterMap_feed, ih (feed opened item).2,
        List.inits_cons, List.zip_cons_cons, List.zip_map_left, List.filterMap_cons,
        List.filterMap_map, Function.comp_def, Prod.map, id, hfirst, hlater]
      cases item.failure? opened <;> rfl

theorem feed_clears {opened : Stack Partial} {item : Item} {e : ParseError}
    (h : (feed opened item).1 = some (.error e)) (he : e.kind ≠ .token) :
    (feed opened item).2 = .empty := by
  cases item with
  | failure cause =>
      cases h
      exact absurd rfl he
  | fault message => cases h
  | token t =>
      have hfrom := accept_fromToken h
      generalize hrest : (feed opened (.token t)).2 = rest
      rw [show (accept opened t).2 = rest from hrest] at hfrom
      cases hfrom
      rfl

theorem run_split {opened : Stack Partial} {items : List Item} {before after : List Event}
    {e : ParseError} (h : run opened items = before ++ .error e :: after) (he : e.kind ≠ .token) :
    ∃ taken rest, items = taken ++ rest ∧ run opened taken = before ++ [.error e] ∧
      after = run .empty rest := by
  induction items generalizing opened before with
  | nil =>
      -- The end of the source: nothing is left.
      cases opened with
      | nil => simp [run, finish] at h
      | cons inner outer =>
          have hend : before = [] ∧ after = [] := by
            cases before <;> simp_all [run, finish]
          obtain ⟨rfl, rfl⟩ := hend
          exact ⟨[], [], rfl, h, rfl⟩
  | cons item items ih =>
      cases hevent : (feed opened item).1 with
      | none =>
          simp only [run, hevent, Option.toList_none, List.nil_append] at h
          obtain ⟨taken, rest, rfl, htaken, hrest⟩ := ih h
          exact ⟨item :: taken, rest, rfl, by simpa [run, hevent] using htaken, hrest⟩
      | some event =>
          simp only [run, hevent, Option.toList_some, List.singleton_append] at h
          cases before with
          | nil =>
              obtain ⟨rfl, rfl⟩ := List.cons.inj h
              have hempty := feed_clears hevent he
              refine ⟨[item], items, rfl, ?_, by rw [hempty]⟩
              simp [run, hevent, hempty, finish, Stack.empty]
          | cons event' before =>
              obtain ⟨rfl, hrun⟩ := List.cons.inj h
              obtain ⟨taken, rest, rfl, htaken, hrest⟩ := ih hrun
              exact ⟨item :: taken, rest, rfl, by simpa [run, hevent] using htaken, hrest⟩

/-- Items that are no tokens may be left out: the forms and the errors about tokens stay, and each piece
that is no token is reported once, in its turn, with the constructs that the tokens before it have opened.
After an error about tokens the parser goes on as a new one would. -/
theorem recovery_is_transparent (items : List Item) :
    (run .empty items).filter Event.isStructural = run .empty (items.filter Item.isToken) ∧
      (run .empty items).filterMap Event.failure? = ((items.inits.zip items).filterMap fun z =>
        z.2.failure? (feedAll .empty (z.1.filter Item.isToken)).2) ∧
      ∀ (before after : List Event) (e : ParseError),
        run .empty items = before ++ .error e :: after → e.kind ≠ .token →
          ∃ taken rest, items = taken ++ rest ∧ run .empty taken = before ++ [.error e] ∧
            after = run .empty rest :=
  ⟨run_filter .empty items, run_failures .empty items, fun _ _ _ h he => run_split h he⟩

theorem recovery_is_transparent_behind_mismatch :
    let token (l : Lexeme) : Item := .token ⟨l, .nowhere⟩
    let cause : TokenError := ⟨.overflow, .nowhere⟩
    let inner : Partial := .group .paren .nowhere []
    let e : ParseError := .mismatch .brace .nowhere inner []
    let before : List Event := [.error (.token cause [inner])]
    let after : List Event := [.form (.symbol "a" .nowhere)]
    let items := [token (.opener .paren), .failure cause, token (.closer .brace),
      token (.symbol "a")]
    run .empty items = before ++ .error e :: after ∧ e.kind ≠ .token ∧
      ∃ taken rest, items = taken ++ rest ∧ run .empty taken = before ++ [.error e] ∧
        after = run .empty rest :=
  ⟨rfl, nofun, (recovery_is_transparent _).2.2 _ _ _ rfl nofun⟩

end Parser

end SmallLisp
