import Mathlib.Logic.ExistsUnique
import Mathlib.Logic.Function.Iterate
import SmallLisp.Proofs.Form.Tokens

/-!
The shapes of errors. The parts of an error could be put together in many ways, and most of them could not
be shown. Whatever a source of tokens answers, and however often it is asked, what a parser puts together
has one of four shapes, and of these everything can be shown.
-/
namespace SmallLisp

def Partial.isGroup (kind : Delimiter) : Partial → Bool
  | .group kind' _ _ => kind' = kind
  | _ => false

structure ErrorParts where
  kind : ParseError.Kind
  token? : Option TokenError
  close? : Option (Delimiter × Span)
  partials : List Partial

namespace ErrorParts

def innermost? (e : ErrorParts) : Option Partial := e.partials[e.partials.length - 1]?

def text? (e : ErrorParts) : Option String :=
  match e.kind, e.close?, e.innermost? with
  | .token, _, _ => e.token?.map TokenError.text
  | _, some (kind, closer), none => some s!"{closer.start.text}: unmatched '{kind.closing}'"
  | _, some (kind, closer), some inner =>
      some (s!"{closer.start.text}: '{kind.closing}' does not close {inner.opening} at " ++
        inner.span.start.text)
  | _, none, some inner => some s!"{inner.span.start.text}: {inner.describe}"
  | _, none, none => none

def complaints? (e : ErrorParts) : Option (List (Span × String)) :=
  match e.kind, e.close?, e.innermost? with
  | .token, _, _ => e.token?.map fun cause => [(cause.span, cause.message)]
  | _, some (kind, closer), none => some [(closer, s!"unmatched '{kind.closing}'")]
  | _, some (kind, closer), some inner =>
      some [(closer, s!"'{kind.closing}' does not close {inner.opening}")]
  | _, none, _ => some []

def outward? (e : ErrorParts) : Nat → Option (List (Span × String))
  | 0 => some []
  | i + 1 => do
      let p ← e.partials[i]?
      let rest ← e.outward? i
      pure ((p.span, p.describe) :: rest)

def diagnose? (f : File) (e : ErrorParts) : Option (List Diagnostic) := do
  let complaints ← e.complaints?
  let constructs ← e.outward? e.partials.length
  pure ((complaints ++ constructs).map fun (span, message) => ⟨f, span, message⟩)

def isIncomplete (e : ErrorParts) : Bool :=
  e.kind = .incomplete && e.close?.isNone && !e.partials.isEmpty

inductive Shape where
  | token | mismatch | unmatched | unfinished
deriving DecidableEq

inductive Shaped : Shape → List Partial → Option Parser.Item → ErrorParts → Prop
  | token (cause : TokenError) (opened : List Partial) :
      Shaped .token opened (some (.failure cause)) ⟨.token, some cause, none, opened⟩
  | mismatch {opened : List Partial} {inner : Partial} {kind : Delimiter} {closer : Span} :
      opened.getLast? = some inner → inner.isGroup kind = false →
      Shaped .mismatch opened (some (.token ⟨.closer kind, closer⟩))
        ⟨.mismatch, none, some (kind, closer), opened⟩
  | unmatched (kind : Delimiter) (closer : Span) :
      Shaped .unmatched [] (some (.token ⟨.closer kind, closer⟩))
        ⟨.incomplete, none, some (kind, closer), []⟩
  | unfinished {opened : List Partial} : opened ≠ [] →
      Shaped .unfinished opened none ⟨.incomplete, none, none, opened⟩

variable {shape shape' : Shape} {opened opened' : List Partial} {answer answer' : Option Parser.Item}
  {e : ErrorParts}

theorem Shaped.unique (h : Shaped shape opened answer e) (h' : Shaped shape' opened' answer' e) :
    shape' = shape := by
  cases h <;> cases h' <;> rfl

theorem innermost?_eq (e : ErrorParts) : e.innermost? = e.partials.getLast? :=
  List.getLast?_eq_getElem?.symm

theorem outward?_eq {e : ErrorParts} {i : Nat} (hi : i ≤ e.partials.length) :
    e.outward? i = some ((e.partials.take i).reverse.map fun p => (p.span, p.describe)) := by
  induction i with
  | zero => rfl
  | succ i ih =>
      have hlast : e.partials.take (i + 1) = e.partials.take i ++ [e.partials[i]] :=
        List.take_succ_eq_append_getElem hi
      rw [outward?, ih (Nat.le_of_succ_le hi), List.getElem?_eq_getElem hi, hlast, List.reverse_concat]
      rfl

theorem Shaped.text?_isSome (h : Shaped shape opened answer e) : e.text?.isSome := by
  cases h with
  | token => rfl
  | mismatch hinner _ => simp [text?, innermost?_eq, hinner]
  | unmatched => rfl
  | unfinished hopened =>
      obtain ⟨inner, hinner⟩ := Option.ne_none_iff_exists'.mp (mt List.getLast?_eq_none_iff.mp hopened)
      simp [text?, innermost?_eq, hinner]

/-- Without a construct there is nothing to say about an end that comes too early. -/
example : text? ⟨.incomplete, none, none, []⟩ = none := rfl

theorem Shaped.diagnose?_isSome (h : Shaped shape opened answer e) (f : File) : (e.diagnose? f).isSome := by
  have hcomplaints : e.complaints?.isSome := by
    cases h with
    | mismatch hinner _ => simp [complaints?, innermost?_eq, hinner]
    | _ => rfl
  obtain ⟨complaints, hcomplaints⟩ := Option.isSome_iff_exists.mp hcomplaints
  rw [diagnose?, hcomplaints, outward?_eq (Nat.le_refl _)]
  rfl

theorem Shaped.isIncomplete_iff (h : Shaped shape opened answer e) :
    e.isIncomplete = true ↔ answer = none := by
  cases h with
  | unfinished hopened => simpa [isIncomplete] using hopened
  | _ => simp [isIncomplete]

end ErrorParts

namespace ParseError

def token? : ParseError → Option TokenError
  | .token cause _ => some cause
  | _ => none

def parts (e : ParseError) : ErrorParts := ⟨e.kind, e.token?, e.rejected?, e.partials⟩

theorem text?_parts (e : ParseError) : e.parts.text? = some e.text := by
  cases e <;> simp [parts, ErrorParts.text?, ErrorParts.innermost?_eq, kind, token?, rejected?, partials,
    text]

theorem complaints?_parts (e : ParseError) : e.parts.complaints? = some e.complaint?.toList := by
  cases e <;> simp [parts, ErrorParts.complaints?, ErrorParts.innermost?_eq, kind, token?, rejected?, partials,
    complaint?]

theorem isIncomplete_parts (e : ParseError) : e.parts.isIncomplete = e.isIncomplete := by
  cases e <;> simp [parts, ErrorParts.isIncomplete, isIncomplete, kind, rejected?, partials]

theorem complaint?_span (e : ParseError) :
    e.complaint?.map (·.1) = (e.token?.map (·.span)).or (e.rejected?.map (·.2)) := by
  cases e <;> rfl

theorem diagnose?_parts (e : ParseError) (f : File) : e.parts.diagnose? f = some (e.diagnose f) := by
  rw [ErrorParts.diagnose?, complaints?_parts, ErrorParts.outward?_eq (Nat.le_refl _), List.take_length]
  rfl

end ParseError

namespace Parser

variable {σ : Type}

def react (opened : Stack Partial) : Option Item → Option Event × Stack Partial
  | none => ((finish opened).head?, .empty)
  | some item => feed opened item

theorem shaped_of_close {kind : Delimiter} {closer : Span} {opened : Stack Partial} {e : ParseError}
    (h : (close kind closer opened).1 = some (.error e)) :
    ∃ shape, ErrorParts.Shaped shape opened.bottomUp (some (.token ⟨.closer kind, closer⟩)) e.parts := by
  cases opened with
  | nil =>
      cases h
      exact ⟨_, .unmatched kind closer⟩
  | cons inner outer =>
      cases inner with
      | group kind' opener children =>
          simp only [close] at h
          split at h
          · exact absurd h (complete_ne_error _ _ e)
          · next hkind =>
              cases h
              exact ⟨_, .mismatch List.getLast?_reverse (decide_eq_false hkind)⟩
      | ascription site type =>
          cases h
          exact ⟨_, .mismatch List.getLast?_reverse rfl⟩
      | marked mark site =>
          cases h
          exact ⟨_, .mismatch List.getLast?_reverse rfl⟩

theorem shaped_of_react {opened : Stack Partial} {answer : Option Item} {e : ParseError}
    (h : (react opened answer).1 = some (.error e)) :
    ∃ shape, ErrorParts.Shaped shape opened.bottomUp answer e.parts := by
  cases answer with
  | none =>
      cases opened with
      | nil => cases h
      | cons inner outer =>
          cases h
          exact ⟨_, .unfinished (by simp [Stack.bottomUp])⟩
  | some item =>
      cases item with
      | failure cause =>
          cases h
          exact ⟨_, .token cause _⟩
      | fault message => cases h
      | token t =>
          obtain ⟨lexeme, span⟩ := t
          cases lexeme with
          | number value => exact absurd h (complete_ne_error _ _ e)
          | symbol text => exact absurd h (complete_ne_error _ _ e)
          | opener kind => cases h
          | sigil s => cases s <;> cases h
          | closer kind => exact shaped_of_close h

theorem exists_error_of_shaped {shape : ErrorParts.Shape} {opened : Stack Partial} {answer : Option Item}
    {parts : ErrorParts} (h : ErrorParts.Shaped shape opened.bottomUp answer parts) :
    ∃ e, (react opened answer).1 = some (.error e) ∧ e.parts = parts := by
  generalize hopened : opened.bottomUp = outward at h
  cases h with
  | token cause =>
      subst hopened
      exact ⟨.token cause opened, rfl, rfl⟩
  | @mismatch _ inner kind closer hinner hgroup =>
      subst hopened
      rw [Stack.bottomUp, List.getLast?_reverse] at hinner
      obtain ⟨outer, rfl⟩ := List.head?_eq_some_iff.mp hinner
      refine ⟨.mismatch kind closer inner outer, ?_, rfl⟩
      cases inner with
      | group kind' opener children =>
          have hkind : kind' ≠ kind := of_decide_eq_false hgroup
          simp only [react, feed, accept, close, if_neg hkind]
      | _ => rfl
  | unmatched kind closer =>
      obtain rfl : opened = [] := List.reverse_eq_nil_iff.mp hopened
      exact ⟨.unmatched kind closer, rfl, rfl⟩
  | unfinished hne =>
      subst hopened
      cases opened with
      | nil => exact absurd rfl hne
      | cons inner outer => exact ⟨.unfinished inner outer, rfl, rfl⟩

def handed? (ask : σ → Option Item × σ) (p : Stack Partial × σ) : Option Event :=
  (react p.1 (ask p.2).1).1

def asked (ask : σ → Option Item × σ) (p : Stack Partial × σ) : Stack Partial × σ :=
  ((react p.1 (ask p.2).1).2, (ask p.2).2)

inductive Returns (ask : σ → Option Item × σ) :
    Stack Partial × σ → Option Event → Stack Partial × σ → Prop
  | last {p : Stack Partial × σ} : (ask p.2).1 = none ∨ (handed? ask p).isSome →
      Returns ask p (handed? ask p) (asked ask p)
  | more {p p' : Stack Partial × σ} {event : Option Event} :
      (ask p.2).1.isSome → handed? ask p = none → Returns ask (asked ask p) event p' →
      Returns ask p event p'

inductive Calls (ask : σ → Option Item × σ) :
    Stack Partial × σ → List (Option Event) → Stack Partial × σ → Prop
  | done (p : Stack Partial × σ) : Calls ask p [] p
  | call {p p' p'' : Stack Partial × σ} {event : Option Event} {events : List (Option Event)} :
      Returns ask p event p' → Calls ask p' events p'' → Calls ask p (event :: events) p''

variable {ask : σ → Option Item × σ} {p p' : Stack Partial × σ} {event : Option Event}
  {events : List (Option Event)}

theorem Returns.exists_asked (h : Returns ask p event p') :
    ∃ n, event = handed? ask ((asked ask)^[n] p) ∧ p' = (asked ask)^[n + 1] p := by
  induction h with
  | last _ => exact ⟨0, rfl, rfl⟩
  | more _ _ _ ih =>
      obtain ⟨n, hevent, hp⟩ := ih
      exact ⟨n + 1, hevent, hp⟩

theorem Calls.exists_asked (h : Calls ask p events p') (hevent : event ∈ events) :
    ∃ n, event = handed? ask ((asked ask)^[n] p) := by
  induction h with
  | done => cases hevent
  | @call p _ _ _ _ hreturns _ ih =>
      obtain ⟨n, rfl, rfl⟩ := hreturns.exists_asked
      rcases List.mem_cons.mp hevent with rfl | hevent
      · exact ⟨n, rfl⟩
      · obtain ⟨k, rfl⟩ := ih hevent
        exact ⟨k + (n + 1), congrArg (handed? ask) (Function.iterate_add_apply _ k (n + 1) p).symm⟩

theorem Calls.more (h : Calls ask (asked ask p) events p') (hevents : events ≠ [])
    (hsome : (ask p.2).1.isSome) (hnone : handed? ask p = none) : Calls ask p events p' := by
  cases h with
  | done => exact absurd rfl hevents
  | call hreturns hcalls => exact .call (.more hsome hnone hreturns) hcalls

def fromList (items : List Item) : Option Item × List Item := (items.head?, items.tail)

theorem calls_run (opened : Stack Partial) (items : List Item) :
    Calls fromList (opened, items) ((run opened items).map some ++ [none]) (.empty, []) := by
  induction items generalizing opened with
  | nil =>
      cases opened with
      | nil => exact .call (.last (.inl rfl)) (.done _)
      | cons inner outer => exact .call (.last (.inl rfl)) (.call (.last (.inl rfl)) (.done _))
  | cons item items ih =>
      have hrest : Calls fromList (asked fromList (opened, item :: items))
          ((run (feed opened item).2 items).map some ++ [none]) (.empty, []) := ih _
      cases hevent : (feed opened item).1 with
      | none =>
          simp only [run, hevent, Option.toList_none, List.nil_append]
          exact hrest.more (by simp) rfl hevent
      | some event =>
          have hhanded : handed? fromList (opened, item :: items) = some event := hevent
          simp only [run, hevent, Option.toList_some, List.cons_append, List.nil_append, List.map_cons]
          rw [← hhanded]
          exact .call (.last (.inr (by simp [hhanded]))) hrest

structure WellShaped (opened : Stack Partial) (answer : Option Item) (e : ParseError) : Prop where
  shape : ∃! shape, ErrorParts.Shaped shape opened.bottomUp answer e.parts
  text : e.parts.text? = some e.text
  innermost : e.partials ≠ [] → ∃ inner, e.parts.innermost? = some inner ∧ e.innermost? = some inner
  diagnose (f : File) : e.parts.diagnose? f = some (e.diagnose f)
  entries (f : File) : ∃ complaint : Option (Span × String),
    complaint.map (·.1) = (e.token?.map (·.span)).or (e.rejected?.map (·.2)) ∧
      e.diagnose f = (complaint.toList ++ e.partials.reverse.map fun p => (p.span, p.describe)).map
        fun (span, message) => ⟨f, span, message⟩
  incomplete : e.isIncomplete = true ↔ answer = none

theorem wellShaped_of_react {opened : Stack Partial} {answer : Option Item} {e : ParseError}
    (h : (react opened answer).1 = some (.error e)) : WellShaped opened answer e := by
  obtain ⟨shape, hshape⟩ := shaped_of_react h
  refine ⟨⟨shape, hshape, fun _ => hshape.unique⟩, e.text?_parts, ?_, e.diagnose?_parts, ?_, ?_⟩
  · intro hpartials
    obtain ⟨inner, hinner⟩ := Option.ne_none_iff_exists'.mp (mt List.getLast?_eq_none_iff.mp hpartials)
    exact ⟨inner, (ErrorParts.innermost?_eq _).trans hinner, hinner⟩
  · intro f
    exact ⟨e.complaint?, e.complaint?_span, rfl⟩
  · rw [← e.isIncomplete_parts, hshape.isIncomplete_iff]

/-- Every error that a parser hands out is well shaped, whatever its source answers: tokens, failures and
faults, or the end of it time and again. That holds in particular of the errors of a text. Nothing is amiss
with the shapes themselves: an error comes about wherever one of them fits, and it can be shown. -/
theorem errors_are_well_shaped :
    (∀ {σ : Type} {ask : σ → Option Item × σ} {s : σ} {events : List (Option Event)}
      {p : Stack Partial × σ}, Calls ask (.empty, s) events p → ∀ e, some (.error e) ∈ events →
        ∃ n, WellShaped ((asked ask)^[n] (.empty, s)).1 (ask ((asked ask)^[n] (.empty, s)).2).1 e) ∧
      (∀ text, ∀ e ∈ parseErrors text, ∃ n,
        let p := (asked fromList)^[n] (.empty, (scan text).map .ofScanned)
        WellShaped p.1 p.2.head? e) ∧
      ∀ {shape : ErrorParts.Shape} {opened : Stack Partial} {answer : Option Item} {parts : ErrorParts},
        ErrorParts.Shaped shape opened.bottomUp answer parts →
          (∃ e, (react opened answer).1 = some (.error e) ∧ e.parts = parts) ∧
            parts.text?.isSome ∧ ∀ f, (parts.diagnose? f).isSome := by
  have hcalls {σ : Type} {ask : σ → Option Item × σ} {s : σ} {events : List (Option Event)}
      {p : Stack Partial × σ} (h : Calls ask (.empty, s) events p) (e : ParseError)
      (he : some (.error e) ∈ events) :
      ∃ n, WellShaped ((asked ask)^[n] (.empty, s)).1 (ask ((asked ask)^[n] (.empty, s)).2).1 e := by
    obtain ⟨n, hn⟩ := h.exists_asked he
    exact ⟨n, wellShaped_of_react hn.symm⟩
  refine ⟨hcalls, fun text e he => ?_, fun h =>
    ⟨exists_error_of_shaped h, h.text?_isSome, h.diagnose?_isSome⟩⟩
  refine hcalls (calls_run .empty ((scan text).map .ofScanned)) e ?_
  exact List.mem_append_left _ (List.mem_map_of_mem (mem_parseErrors_iff.mp he))

theorem errors_are_well_shaped_of_late_closer :
    -- The source ends within a group, and then goes on with the bracket that would have closed it.
    let span : Span := ⟨.start, .start⟩
    let ask (answers : List (Option Item)) : Option Item × List (Option Item) :=
      (answers.head?.join, answers.tail)
    let answers : List (Option Item) := [some (.token ⟨.opener .paren, span⟩), none,
      some (.token ⟨.closer .paren, span⟩)]
    let e : ParseError := .unmatched .paren span
    let events : List (Option Event) :=
      [some (.error (.unfinished (.group .paren span []) [])), some (.error e)]
    Calls ask (.empty, answers) events (.empty, []) ∧ some (.error e) ∈ events ∧
      (∃ n, WellShaped ((asked ask)^[n] (.empty, answers)).1
        (ask ((asked ask)^[n] (.empty, answers)).2).1 e) ∧
      ErrorParts.Shaped .unmatched (Stack.bottomUp []) answers.getLast?.join e.parts ∧
      e.parts.text?.isSome := by
  intro span ask answers e events
  have h : Calls ask (.empty, answers) events (.empty, []) :=
    .call (.more rfl rfl (.last (.inl rfl))) (.call (.last (.inr rfl)) (.done _))
  have he : some (.error e) ∈ events := .tail _ (.head _)
  have hshaped : ErrorParts.Shaped .unmatched (Stack.bottomUp []) answers.getLast?.join e.parts :=
    .unmatched _ _
  exact ⟨h, he, errors_are_well_shaped.1 h e he, hshaped, (errors_are_well_shaped.2.2 hshaped).2.1⟩

end Parser

end SmallLisp
