import SmallLisp.Form.Parser

namespace SmallLisp

mutual

def Form.tokens : Form → List Token
  | .int value site => [⟨.number value, site⟩]
  | .symbol text site => [⟨.symbol text, site⟩]
  | .group kind opener closer children =>
      ⟨.opener kind, opener⟩ :: (Form.allTokens children ++ [⟨.closer kind, closer⟩])
  | .marked mark site operand => ⟨.sigil (.mark mark), site⟩ :: operand.tokens
  | .ascription site type value => ⟨.sigil .ascription, site⟩ :: (type.tokens ++ value.tokens)

def Form.allTokens : List Form → List Token
  | [] => []
  | f :: fs => f.tokens ++ Form.allTokens fs

end

theorem Form.allTokens_eq_flatMap (fs : List Form) : allTokens fs = fs.flatMap tokens := by
  induction fs with
  | nil => rfl
  | cons f fs ih => simp [allTokens, ih]

theorem Form.span_of_tokens {S : Span → Prop} (hjoin : ∀ {s t}, S s → S t → S (s.join t)) {f : Form}
    (hf : ∀ t ∈ f.tokens, S t.span) : S f.span := by
  match f with
  | .int value site => exact hf ⟨.number value, site⟩ (by simp [tokens])
  | .symbol name site => exact hf ⟨.symbol name, site⟩ (by simp [tokens])
  | .group kind opener closer children =>
      exact hjoin (hf ⟨.opener kind, opener⟩ (by simp [tokens]))
        (hf ⟨.closer kind, closer⟩ (by simp [tokens]))
  | .marked mark site operand =>
      obtain ⟨hsite, hoperand⟩ := List.forall_mem_cons.mp hf
      exact hjoin hsite (span_of_tokens hjoin hoperand)
  | .ascription site type value =>
      obtain ⟨hsite, hrest⟩ := List.forall_mem_cons.mp hf
      exact hjoin hsite (span_of_tokens hjoin (List.forall_mem_append.mp hrest).2)

def Partial.tokens : Partial → List Token
  | .group kind opener children =>
      ⟨.opener kind, opener⟩ :: children.bottomUp.flatMap Form.tokens
  | .ascription site type => ⟨.sigil .ascription, site⟩ :: type.toList.flatMap Form.tokens
  | .marked mark site => [⟨.sigil (.mark mark), site⟩]

def ParseError.tokens : ParseError → List Token
  | .token _ _ => []
  | .mismatch kind closer inner outer =>
      (outer.push inner).bottomUp.flatMap Partial.tokens ++ [⟨.closer kind, closer⟩]
  | .unmatched kind closer => [⟨.closer kind, closer⟩]
  | .unfinished inner outer => (outer.push inner).bottomUp.flatMap Partial.tokens

namespace Parser

def Event.tokens : Event → List Token
  | .form f => f.tokens
  | .error e => e.tokens
  | .fault _ => []

def Item.tokens : Item → List Token
  | .token t => [t]
  | .failure _ => []
  | .fault _ => []

def pending (opened : Stack Partial) : List Token :=
  opened.bottomUp.flatMap Partial.tokens

@[simp] theorem pending_nil : pending [] = [] := rfl

@[simp] theorem pending_cons (inner : Partial) (outer : Stack Partial) :
    pending (inner :: outer) = pending outer ++ inner.tokens := by
  simp [pending, Stack.bottomUp]

theorem tokens_group_push (kind : Delimiter) (opener : Span) (children : Stack Form) (f : Form) :
    (Partial.group kind opener (children.push f)).tokens =
      (Partial.group kind opener children).tokens ++ f.tokens := by
  simp [Partial.tokens]

theorem absorb_tokens (f : Form) (opened : Stack Partial) :
    (absorb f opened).1.toList.flatMap Form.tokens ++ pending (absorb f opened).2 =
      pending opened ++ f.tokens := by
  induction opened generalizing f with
  | nil => simp [absorb]
  | cons inner outer ih =>
      cases inner with
      | marked mark site => simp [absorb, ih, Form.tokens, Partial.tokens]
      | group kind opener children => simp [absorb, tokens_group_push]
      | ascription site type =>
          cases type with
          | none => simp [absorb, Partial.tokens]
          | some type => simp [absorb, ih, Form.tokens, Partial.tokens]

theorem complete_ne_error (f : Form) (opened : Stack Partial) (e : ParseError) :
    (complete f opened).1 ≠ some (.error e) := by
  simp only [complete]
  cases (absorb f opened).1 <;> simp

theorem complete_tokens (f : Form) (opened : Stack Partial) :
    (complete f opened).1.toList.flatMap Event.tokens ++ pending (complete f opened).2 =
      pending opened ++ f.tokens := by
  have h := absorb_tokens f opened
  simp only [complete]
  cases hd : (absorb f opened).1 with
  | none => simpa [hd] using h
  | some g => simpa [hd, Event.tokens] using h

theorem close_tokens (kind : Delimiter) (closer : Span) (opened : Stack Partial) :
    (close kind closer opened).1.toList.flatMap Event.tokens ++ pending (close kind closer opened).2 =
      pending opened ++ [⟨.closer kind, closer⟩] := by
  have hlost (inner : Partial) (outer : Stack Partial) :
      (ParseError.mismatch kind closer inner outer).tokens =
        pending (inner :: outer) ++ [⟨.closer kind, closer⟩] := rfl
  cases opened with
  | nil => rfl
  | cons inner outer =>
      cases inner with
      | group kind' opener children =>
          by_cases hk : kind' = kind
          · subst hk
            simp only [close, if_true, complete_tokens]
            simp [Form.tokens, Form.allTokens_eq_flatMap, Partial.tokens]
          · simp [close, hk, Event.tokens, hlost]
      | marked mark site => simp [close, Event.tokens, hlost]
      | ascription site type => simp [close, Event.tokens, hlost]

/-- One step: the tokens handed out and those still waiting are those that waited before and the one
just taken. -/
theorem feed_tokens (opened : Stack Partial) (item : Item) :
    (feed opened item).1.toList.flatMap Event.tokens ++ pending (feed opened item).2 =
      pending opened ++ item.tokens := by
  cases item with
  | failure e => simp [feed, Event.tokens, ParseError.tokens, Item.tokens]
  | fault message => simp [feed, Event.tokens, Item.tokens]
  | token t =>
      obtain ⟨lexeme, span⟩ := t
      cases lexeme with
      | number value => exact complete_tokens _ _
      | symbol text => exact complete_tokens _ _
      | closer kind => exact close_tokens kind span opened
      | opener kind =>
          simp [feed, accept, Item.tokens, Stack.push, Partial.tokens, Stack.empty, Stack.bottomUp]
      | sigil s =>
          cases s with
          | ascription => simp [feed, accept, Item.tokens, Stack.push, Partial.tokens]
          | mark m => simp [feed, accept, Item.tokens, Stack.push, Partial.tokens]

theorem tokens_initial_of_feed {opened : Stack Partial} {item : Item} {event : Event}
    (h : (feed opened item).1 = some event) : event.tokens <+: pending opened ++ item.tokens := by
  have htokens := feed_tokens opened item
  rw [h, Option.toList_some, List.flatMap_singleton] at htokens
  exact ⟨_, htokens⟩

theorem pending_final_of_feed (opened : Stack Partial) (item : Item) :
    pending (feed opened item).2 <:+ pending opened ++ item.tokens :=
  ⟨_, feed_tokens opened item⟩

theorem run_tokens (opened : Stack Partial) (items : List Item) :
    (run opened items).flatMap Event.tokens = pending opened ++ items.flatMap Item.tokens := by
  induction items generalizing opened with
  | nil =>
      cases opened with
      | nil => rfl
      | cons inner outer => simp [run, finish, Event.tokens, ParseError.tokens, pending, Stack.push]
  | cons item items ih =>
      simp only [run, List.flatMap_append, ih, List.flatMap_cons]
      rw [← List.append_assoc, feed_tokens, List.append_assoc]

theorem mem_parseForms_iff {text : List Char} {f : Form} :
    f ∈ parseForms text ↔ .form f ∈ parse text := by
  simp only [parseForms, List.mem_filterMap]
  constructor
  · rintro ⟨event, hevent, hform⟩
    cases event with
    | form f' =>
        cases hform
        exact hevent
    | _ => cases hform
  · intro hf
    exact ⟨.form f, hf, rfl⟩

theorem mem_parseErrors_iff {text : List Char} {e : ParseError} :
    e ∈ parseErrors text ↔ .error e ∈ parse text := by
  simp only [parseErrors, List.mem_filterMap]
  constructor
  · rintro ⟨event, hevent, herror⟩
    cases event with
    | error e' =>
        cases herror
        exact hevent
    | _ => cases herror
  · intro he
    exact ⟨.error e, he, rfl⟩

theorem mem_scan_of_form_mem_parse {text : List Char} {f : Form} (hf : .form f ∈ parse text)
    {t : Token} (ht : t ∈ f.tokens) : .ok t ∈ scan text := by
  have hmem : t ∈ (parse text).flatMap Event.tokens := List.mem_flatMap.mpr ⟨_, hf, ht⟩
  rw [parse, run_tokens, Stack.empty, pending_nil, List.nil_append] at hmem
  simp only [List.mem_flatMap, List.mem_map] at hmem
  obtain ⟨_, ⟨i, hi, rfl⟩, ht⟩ := hmem
  cases i with
  | error e => cases ht
  | ok t' =>
      obtain rfl : t = t' := List.mem_singleton.mp ht
      exact hi

mutual

theorem run_form (f : Form) (opened : Stack Partial) (items : List Item) :
    run opened (f.tokens.map .token ++ items) =
      (complete f opened).1.toList ++ run (complete f opened).2 items := by
  match f with
  | .int value site => rfl
  | .symbol text site => rfl
  | .marked mark site operand =>
      have h := run_form operand (.marked mark site :: opened) items
      simpa [Form.tokens, run, feed, accept, Stack.push, complete, absorb] using h
  | .ascription site type value =>
      have ht := run_form type (.ascription site none :: opened)
        (value.tokens.map .token ++ items)
      have hv := run_form value (.ascription site (some type) :: opened) items
      simp only [complete, absorb, Option.map_none, Option.toList_none, List.nil_append] at ht hv
      rw [hv] at ht
      simpa [Form.tokens, run, feed, accept, Stack.push, complete] using ht
  | .group kind opener closer children =>
      have h := run_children children kind opener .empty opened
        (.token ⟨.closer kind, closer⟩ :: items)
      simpa [Form.tokens, run, feed, accept, close, Stack.push, Stack.empty, Stack.bottomUp] using h

theorem run_children (fs : List Form) (kind : Delimiter) (opener : Span) (children : Stack Form)
    (outer : Stack Partial) (items : List Item) :
    run (.group kind opener children :: outer) ((Form.allTokens fs).map .token ++ items) =
      run (.group kind opener (fs.reverse ++ children) :: outer) items := by
  match fs with
  | [] => rfl
  | f :: fs =>
      have hf := run_form f (.group kind opener children :: outer)
        ((Form.allTokens fs).map .token ++ items)
      have hfs := run_children fs kind opener (children.push f) outer items
      simp only [complete, absorb, Option.map_none, Option.toList_none, List.nil_append] at hf
      simpa [Form.allTokens, Stack.push] using hf.trans hfs

end

theorem run_forms (fs : List Form) :
    run .empty ((fs.flatMap Form.tokens).map .token) = fs.map .form := by
  induction fs with
  | nil => rfl
  | cons f fs ih =>
      simp only [List.flatMap_cons, List.map_append, run_form]
      simpa [complete, absorb, Stack.empty] using ih

/-- What the parser hands out holds the tokens of its source in order, none lost and none twice; and
from the tokens of any forms it makes these forms and nothing else. -/
theorem parsing_inverts_flattening :
    (∀ items : List Item, (run .empty items).flatMap Event.tokens = items.flatMap Item.tokens) ∧
      ∀ fs : List Form, run .empty ((fs.flatMap Form.tokens).map .token) = fs.map .form :=
  ⟨fun items => run_tokens .empty items, run_forms⟩

end Parser

end SmallLisp
