import SmallLisp.Form.Parser
import SmallLisp.Proofs.Token.Scanning

namespace SmallLisp

namespace Form

mutual

def bare : Form → Form
  | .int value _ => .int value .nowhere
  | .symbol text _ => .symbol text .nowhere
  | .group kind _ _ children => .group kind .nowhere .nowhere (bareAll children)
  | .marked mark _ operand => .marked mark .nowhere operand.bare
  | .ascription _ type value => .ascription .nowhere type.bare value.bare

def bareAll : List Form → List Form
  | [] => []
  | f :: fs => f.bare :: bareAll fs

end

@[simp] theorem bareAll_eq_map (fs : List Form) : bareAll fs = fs.map bare := by
  induction fs with
  | nil => rfl
  | cons f fs ih => simp [bareAll, ih]

mutual

theorem bare_bare (f : Form) : f.bare.bare = f.bare := by
  match f with
  | .int value site => rfl
  | .symbol text site => rfl
  | .group kind opener closer children =>
      simpa [bare] using bareAll_bareAll children
  | .marked mark site operand => simp [bare, bare_bare operand]
  | .ascription site type value => simp [bare, bare_bare type, bare_bare value]

theorem bareAll_bareAll (fs : List Form) : (fs.map bare).map bare = fs.map bare := by
  match fs with
  | [] => rfl
  | f :: fs => simpa only [List.map_cons, bare_bare f] using congrArg _ (bareAll_bareAll fs)

end

end Form

def Partial.bare : Partial → Partial
  | .group kind _ children => .group kind .nowhere (children.map Form.bare)
  | .ascription _ type => .ascription .nowhere (type.map Form.bare)
  | .marked mark _ => .marked mark .nowhere

def ParseError.bare : ParseError → ParseError
  | .token cause opened => .token cause.bare (opened.map Partial.bare)
  | .mismatch kind _ inner outer => .mismatch kind .nowhere inner.bare (outer.map Partial.bare)
  | .unmatched kind _ => .unmatched kind .nowhere
  | .unfinished inner outer => .unfinished inner.bare (outer.map Partial.bare)

namespace Parser

def Event.bare : Event → Event
  | .form f => .form f.bare
  | .error e => .error e.bare
  | .fault message => .fault message

def Item.bare : Item → Item
  | .token t => .token t.bare
  | .failure e => .failure e.bare
  | .fault message => .fault message

theorem Item.bare_ofScanned (i : Scanned) : (ofScanned i).bare = ofScanned i.bare := by
  cases i <;> rfl

def bareStep (r : Option Event × Stack Partial) : Option Event × Stack Partial :=
  (r.1.map Event.bare, r.2.map Partial.bare)

theorem absorb_bare (f : Form) (opened : Stack Partial) :
    absorb f.bare (opened.map Partial.bare) =
      ((absorb f opened).1.map Form.bare, (absorb f opened).2.map Partial.bare) := by
  induction opened generalizing f with
  | nil => rfl
  | cons inner outer ih =>
      cases inner with
      | marked mark site => exact ih (.marked mark site f)
      | group kind opener children => rfl
      | ascription site type =>
          cases type with
          | none => rfl
          | some type => exact ih (.ascription site type f)

theorem complete_bare (f : Form) (opened : Stack Partial) :
    complete f.bare (opened.map Partial.bare) = bareStep (complete f opened) := by
  simp only [complete, absorb_bare, bareStep, Option.map_map]
  rfl

theorem close_bare (kind : Delimiter) (closer : Span) (opened : Stack Partial) :
    close kind .nowhere (opened.map Partial.bare) = bareStep (close kind closer opened) := by
  cases opened with
  | nil => rfl
  | cons inner outer =>
      cases inner with
      | marked mark site => rfl
      | ascription site type => rfl
      | group kind' opener children =>
          simp only [List.map_cons, Partial.bare, close]
          split
          · have h := complete_bare (.group kind opener closer children.bottomUp) outer
            simpa [Form.bare, Stack.bottomUp] using h
          · rfl

theorem feed_bare (opened : Stack Partial) (item : Item) :
    feed (opened.map Partial.bare) item.bare = bareStep (feed opened item) := by
  cases item with
  | failure e => rfl
  | fault message => rfl
  | token t =>
      obtain ⟨lexeme, span⟩ := t
      cases lexeme with
      | number value => exact complete_bare (.int value span) opened
      | symbol text => exact complete_bare (.symbol text span) opened
      | opener kind => rfl
      | closer kind => exact close_bare kind span opened
      | sigil s => cases s <;> rfl

def feedAll : Stack Partial → List Item → List Event × Stack Partial
  | opened, [] => ([], opened)
  | opened, item :: items =>
      let (event, opened') := feed opened item
      let (events, opened'') := feedAll opened' items
      (event.toList ++ events, opened'')

theorem run_append (opened : Stack Partial) (items items' : List Item) :
    run opened (items ++ items') =
      (feedAll opened items).1 ++ run (feedAll opened items).2 items' := by
  induction items generalizing opened with
  | nil => rfl
  | cons item items ih => simp [run, feedAll, ih]

theorem run_eq_feedAll (opened : Stack Partial) (items : List Item) :
    run opened items = (feedAll opened items).1 ++ finish (feedAll opened items).2 := by
  have h := run_append opened items []
  rwa [List.append_nil] at h

theorem feedAll_bare (opened : Stack Partial) (items : List Item) :
    feedAll (opened.map Partial.bare) (items.map Item.bare) =
      ((feedAll opened items).1.map Event.bare, (feedAll opened items).2.map Partial.bare) := by
  induction items generalizing opened with
  | nil => rfl
  | cons item items ih =>
      simp only [List.map_cons, feedAll, feed_bare, bareStep, ih, List.map_append]
      cases (feed opened item).1 <;> rfl

theorem finish_bare (opened : Stack Partial) :
    finish (opened.map Partial.bare) = (finish opened).map Event.bare := by
  cases opened <;> rfl

theorem run_bare (opened : Stack Partial) (items : List Item) :
    run (opened.map Partial.bare) (items.map Item.bare) = (run opened items).map Event.bare := by
  simp [run_eq_feedAll, feedAll_bare, finish_bare]

def itemsOf (text : List Char) : List Item := (scan text).map Item.ofScanned

theorem parse_bare (text : List Char) :
    (parse text).map Event.bare = run .empty ((itemsOf text).map Item.bare) :=
  (run_bare .empty (itemsOf text)).symm

theorem itemsOf_append_newline (t s : List Char) :
    (itemsOf (t ++ '\n' :: s)).map Item.bare =
      (itemsOf t).map Item.bare ++ (itemsOf s).map Item.bare := by
  have h := congrArg (List.map Item.ofScanned) (Scanner.scan_append_newline t s)
  simpa only [itemsOf, List.map_append, List.map_map, Function.comp_def, Item.bare_ofScanned] using h

theorem opened_of_needsMore_eq_false {t : List Char} (h : needsMore t = false) :
    (feedAll .empty (itemsOf t)).2 = .empty := by
  cases ho : (feedAll .empty (itemsOf t)).2 with
  | nil => rfl
  | cons inner outer =>
      have hp : parse t = (feedAll .empty (itemsOf t)).1 ++ [.error (.unfinished inner outer)] := by
        have hr := run_eq_feedAll .empty (itemsOf t)
        rwa [ho] at hr
      simp [needsMore, parseErrors, hp, Event.error?, ParseError.isIncomplete] at h

theorem parse_append_newline {t : List Char} (h : needsMore t = false) (s : List Char) :
    (parse (t ++ '\n' :: s)).map Event.bare =
      (parse t).map Event.bare ++ (parse s).map Event.bare := by
  have ho : (feedAll .empty ((itemsOf t).map Item.bare)).2 = .empty := by
    have hb := feedAll_bare .empty (itemsOf t)
    rw [opened_of_needsMore_eq_false h] at hb
    exact congrArg Prod.snd hb
  simp only [parse_bare, itemsOf_append_newline, run_append, ho]
  rw [run_eq_feedAll .empty ((itemsOf t).map Item.bare), ho]
  simp [finish, Stack.empty]

end Parser

end SmallLisp
