import SmallLisp.Proofs.Form.Bare
import SmallLisp.Proofs.Form.Tokens
import SmallLisp.Proofs.Text.Utf8
import SmallLisp.Proofs.Token.Spelling

namespace SmallLisp

open Text Scanner

namespace Parser

def afterForm : Stack Partial → List Lexeme
  | [] => []
  | .marked _ _ :: outer => afterForm outer
  | .ascription _ (some _) :: outer => afterForm outer
  | .ascription _ none :: outer => .number 0 :: afterForm outer
  | .group kind _ _ :: outer => .closer kind :: afterForm outer

def completion : Stack Partial → List Lexeme
  | [] => []
  | .group kind opener children :: outer => afterForm (.group kind opener children :: outer)
  | opened => .number 0 :: afterForm opened

theorem complete_afterForm {opened : Stack Partial} {ts : List Token}
    (h : ts.map Token.lexeme = afterForm opened) (f : Form) :
    ∃ g, (complete f opened).1.toList ++ run (complete f opened).2 (ts.map .token) = [.form g] := by
  induction opened generalizing f ts with
  | nil =>
      obtain rfl : ts = [] := List.map_eq_nil_iff.mp h
      exact ⟨f, rfl⟩
  | cons inner outer ih =>
      cases inner with
      | marked mark site => exact ih h (.marked mark site f)
      | group kind opener children =>
          obtain ⟨⟨_, closer⟩, ts, rfl, rfl, hts⟩ := List.map_eq_cons_iff.mp h
          obtain ⟨g, hg⟩ := ih hts (.group kind opener closer (children.push f).bottomUp)
          refine ⟨g, ?_⟩
          simpa [complete, absorb, run, feed, accept, close] using hg
      | ascription site type =>
          cases type with
          | some type => exact ih h (.ascription site type f)
          | none =>
              obtain ⟨⟨_, span⟩, ts, rfl, rfl, hts⟩ := List.map_eq_cons_iff.mp h
              exact ih hts (.ascription site f (.int 0 span))

theorem run_completion {opened : Stack Partial} (ho : opened ≠ .empty) {ts : List Token}
    (h : ts.map Token.lexeme = completion opened) :
    ∃ g, run opened (ts.map .token) = [.form g] := by
  cases opened with
  | nil => exact absurd rfl ho
  | cons inner outer =>
      cases inner with
      | group kind opener children =>
          obtain ⟨⟨_, closer⟩, ts, rfl, rfl, hts⟩ := List.map_eq_cons_iff.mp h
          obtain ⟨g, hg⟩ := complete_afterForm hts (.group kind opener closer children.bottomUp)
          refine ⟨g, ?_⟩
          simpa [run, feed, accept, close] using hg
      | marked mark site =>
          obtain ⟨⟨_, span⟩, ts, rfl, rfl, hts⟩ := List.map_eq_cons_iff.mp h
          exact complete_afterForm hts (.int 0 span)
      | ascription site type =>
          obtain ⟨⟨_, span⟩, ts, rfl, rfl, hts⟩ := List.map_eq_cons_iff.mp h
          exact complete_afterForm hts (.int 0 span)

theorem feed_ne_unfinished (opened : Stack Partial) (item : Item) (inner : Partial)
    (outer : Stack Partial) : (feed opened item).1 ≠ some (.error (.unfinished inner outer)) := by
  cases item with
  | failure e => simp [feed]
  | fault message => simp [feed]
  | token t =>
      obtain ⟨lexeme, span⟩ := t
      cases lexeme with
      | number value => exact complete_ne_error _ _ _
      | symbol text => exact complete_ne_error _ _ _
      | opener kind => simp [feed, accept]
      | sigil s => cases s <;> simp [feed, accept]
      | closer kind =>
          simp only [feed, accept]
          fun_cases close kind span opened with
          | case1 => simp
          | case2 opener children outer' => exact complete_ne_error _ _ _
          | case3 => simp
          | case4 => simp

theorem unfinished_not_mem_feedAll (opened : Stack Partial) (items : List Item) (inner : Partial)
    (outer : Stack Partial) : .error (.unfinished inner outer) ∉ (feedAll opened items).1 := by
  induction items generalizing opened with
  | nil => simp [feedAll]
  | cons item items ih =>
      simp only [feedAll, List.mem_append, Option.mem_toList, not_or]
      exact ⟨feed_ne_unfinished opened item inner outer, ih _⟩

theorem feedAll_eq_of_run {items : List Item} {fs : List Form} {opened : Stack Partial}
    (h : run .empty items = fs.map .form ++ finish opened) :
    (feedAll .empty items).1 = fs.map .form := by
  have hnot := unfinished_not_mem_feedAll .empty items
  rw [run_eq_feedAll] at h
  cases hrest : (feedAll .empty items).2 with
  | nil =>
      cases opened with
      | nil => simpa [hrest, finish] using h
      | cons inner outer =>
          simp only [hrest, finish, List.append_nil] at h
          exact absurd (by simp [h]) (hnot inner outer)
  | cons inner' outer' =>
      rw [hrest] at h
      cases opened with
      | nil =>
          have hmem : .error (.unfinished inner' outer') ∈ fs.map Event.form ++ finish [] := by
            rw [← h]
            simp [finish]
          simp [finish] at hmem
      | cons inner outer => exact List.append_inj_left' h rfl

theorem flatMap_tokens_of_run {ts : List Token} {fs : List Form}
    (h : run .empty (ts.map .token) = fs.map .form) : fs.flatMap Form.tokens = ts := by
  have htokens := run_tokens .empty (ts.map .token)
  rw [h] at htokens
  simpa [Stack.empty, Event.tokens, Item.tokens, List.flatMap_map] using htokens

theorem prefix_iff_run (ts : List Token) :
    (∃ fs : List Form, ts <+: fs.flatMap Form.tokens) ↔
      ∃ (fs : List Form) (opened : Stack Partial),
        run .empty (ts.map .token) = fs.map .form ++ finish opened := by
  constructor
  · rintro ⟨fs, rest, hts⟩
    have hforms := run_forms fs
    rw [← hts, List.map_append, run_append] at hforms
    obtain ⟨gs, -, -, hgs, -⟩ := List.map_eq_append_iff.mp hforms.symm
    exact ⟨gs, _, by rw [run_eq_feedAll, hgs]⟩
  · rintro ⟨fs, opened, hfs⟩
    have hts := feedAll_eq_of_run hfs
    cases ho : (feedAll .empty (ts.map .token)).2 with
    | nil =>
        have hall : run .empty (ts.map .token) = fs.map .form := by
          rw [run_eq_feedAll, hts, ho, finish, List.append_nil]
        exact ⟨fs, (flatMap_tokens_of_run hall).symm ▸ List.prefix_rfl⟩
    | cons inner outer =>
        let rest := (completion (inner :: outer)).map fun l => (⟨l, .nowhere⟩ : Token)
        have hrest : rest.map Token.lexeme = completion (inner :: outer) := by
          simp [rest, Function.comp_def]
        obtain ⟨g, hg⟩ := run_completion (List.cons_ne_nil inner outer) hrest
        have hall : run .empty ((ts ++ rest).map .token) = (fs ++ [g]).map .form := by
          rw [List.map_append, run_append, hts, ho, hg, List.map_append, List.map_singleton]
        exact ⟨fs ++ [g], rest, (flatMap_tokens_of_run hall).symm⟩

def spelled (lexemes : List Lexeme) : List Char :=
  lexemes.flatMap fun l => l.text.toList ++ [' ']

theorem spells_spelled {lexemes : List Lexeme} (h : ∀ l ∈ lexemes, l.Spellable) :
    Spells (spelled lexemes) lexemes := by
  induction lexemes with
  | nil => exact .nil
  | cons l lexemes ih =>
      obtain ⟨hl, hls⟩ := List.forall_mem_cons.mp h
      have hblank := (ih hls).blank isBlank_space
      simpa [spelled] using hblank.lexeme hl (by simp [isSymbolChar_of_isBlank isBlank_space])

theorem mem_afterForm {l : Lexeme} {opened : Stack Partial} (h : l ∈ afterForm opened) :
    l = .number 0 ∨ ∃ kind, l = .closer kind := by
  fun_induction afterForm opened with
  | case1 => cases h
  | case2 _ _ outer ih => exact ih h
  | case3 _ _ outer ih => exact ih h
  | case4 _ outer ih =>
      rcases List.mem_cons.mp h with rfl | h
      · exact .inl rfl
      · exact ih h
  | case5 kind _ _ outer ih =>
      rcases List.mem_cons.mp h with rfl | h
      · exact .inr ⟨kind, rfl⟩
      · exact ih h

theorem mem_completion {l : Lexeme} {opened : Stack Partial} (h : l ∈ completion opened) :
    l = .number 0 ∨ ∃ kind, l = .closer kind := by
  have hoperand (h : l ∈ .number 0 :: afterForm opened) : l = .number 0 ∨ ∃ kind, l = .closer kind :=
    (List.mem_cons.mp h).elim .inl mem_afterForm
  cases opened with
  | nil => cases h
  | cons inner outer =>
      cases inner with
      | group kind opener children => exact mem_afterForm h
      | marked mark site => exact hoperand h
      | ascription site type => exact hoperand h

theorem spells_completion (opened : Stack Partial) :
    Spells (spelled (completion opened)) (completion opened) := by
  refine spells_spelled fun l hl => ?_
  rcases mem_completion hl with rfl | ⟨kind, rfl⟩
  · decide
  · trivial

theorem ascii_completion (opened : Stack Partial) {c : Char}
    (hc : c ∈ spelled (completion opened)) : c.toNat < 0x80 := by
  obtain ⟨l, hl, hc⟩ := List.mem_flatMap.mp hc
  have hall : (l.text.toList ++ [' ']).all fun c => c.toNat < 0x80 := by
    rcases mem_completion hl with rfl | ⟨kind, rfl⟩
    · decide
    · cases kind <;> decide
  simpa using List.all_eq_true.mp hall c hc

theorem parse_append_completion {t : List Char} {opened : Stack Partial}
    (hopened : (feedAll .empty (itemsOf t)).2 = opened) (ho : opened ≠ .empty) :
    ∃ f, parse (t ++ '\n' :: spelled (completion opened)) =
      (feedAll .empty (itemsOf t)).1 ++ [.form f] := by
  obtain ⟨ts, hscans, hts⟩ := spells_completion opened ((Position.start.advance t).step '\n')
  obtain ⟨f, hf⟩ := run_completion ho hts
  refine ⟨f, ?_⟩
  rw [← hopened] at hf
  rw [parse, scan_append hscans, List.map_append, run_append, List.map_map]
  exact congrArg _ hf

theorem opened_of_needsMore {t : List Char} (h : needsMore t) : ∃ inner outer,
    (feedAll .empty (itemsOf t)).2 = inner :: outer ∧
      parse t = (feedAll .empty (itemsOf t)).1 ++ [.error (.unfinished inner outer)] := by
  have hparse : parse t = (feedAll .empty (itemsOf t)).1 ++ finish (feedAll .empty (itemsOf t)).2 :=
    run_eq_feedAll .empty (itemsOf t)
  obtain ⟨e, he, hincomplete⟩ := List.any_eq_true.mp h
  have hevent := mem_parseErrors_iff.mp he
  cases e with
  | unfinished inner outer =>
      rw [hparse] at hevent
      have hend := (List.mem_append.mp hevent).resolve_left (unfinished_not_mem_feedAll _ _ _ _)
      cases ho : (feedAll .empty (itemsOf t)).2 with
      | nil => simp [ho, finish] at hend
      | cons inner' outer' => exact ⟨inner', outer', rfl, by rw [hparse, ho, finish]⟩
  | _ => cases hincomplete

theorem exists_completion {t : List UInt8} (h : needsMore (decode t)) :
    ∃ u events f inner outer, parse (decode t) = events ++ [.error (.unfinished inner outer)] ∧
      parse (decode (t ++ u)) = events ++ [.form f] := by
  obtain ⟨inner, outer, ho, hparse⟩ := opened_of_needsMore h
  obtain ⟨f, hf⟩ := parse_append_completion ho (List.cons_ne_nil inner outer)
  have hdecode : decode (ascii (spelled (completion (inner :: outer)))) =
      spelled (completion (inner :: outer)) :=
    decode_ascii fun _ => ascii_completion (inner :: outer)
  refine ⟨10 :: ascii (spelled (completion (inner :: outer))), _, f, inner, outer, hparse, ?_⟩
  rw [decode_append_newline, hdecode, hf]

/-- Nothing is wrong with tokens, but that they may end too early, exactly if they begin the tokens of
some forms. A text that needs more can be continued so that one more form stands in the place of the
complaint about its end. -/
theorem incomplete_iff_completable :
    (∀ ts : List Token, (∃ fs : List Form, ts <+: fs.flatMap Form.tokens) ↔
      ∃ fs : List Form, run .empty (ts.map .token) = fs.map .form ∨
        ∃ inner outer,
          run .empty (ts.map .token) = fs.map .form ++ [.error (.unfinished inner outer)]) ∧
    ∀ t : List UInt8, needsMore (decode t) → ∃ u f inner outer,
      parseForms (decode (t ++ u)) = parseForms (decode t) ++ [f] ∧
        parseErrors (decode t) = parseErrors (decode (t ++ u)) ++ [.unfinished inner outer] := by
  refine ⟨fun ts => (prefix_iff_run ts).trans ⟨?_, ?_⟩, ?_⟩
  · rintro ⟨fs, opened, h⟩
    cases opened with
    | nil => exact ⟨fs, .inl (by simpa [finish] using h)⟩
    | cons inner outer => exact ⟨fs, .inr ⟨inner, outer, h⟩⟩
  · rintro ⟨fs, h | ⟨inner, outer, h⟩⟩
    · exact ⟨fs, [], by simpa [finish] using h⟩
    · exact ⟨fs, inner :: outer, h⟩
  · intro t ht
    obtain ⟨u, events, f, inner, outer, hparse, hcompleted⟩ := exists_completion ht
    refine ⟨u, f, inner, outer, ?_, ?_⟩
    · simp [parseForms, hparse, hcompleted, Event.form?]
    · simp [parseErrors, hparse, hcompleted, Event.error?]

theorem incomplete_iff_completable_at_open_quote :
    -- The text `) (a :t '`, which also holds an error.
    let t : List UInt8 := [41, 32, 40, 97, 32, 58, 116, 32, 39]
    needsMore (decode t) ∧ ∃ u f inner outer,
      parseForms (decode (t ++ u)) = parseForms (decode t) ++ [f] ∧
        parseErrors (decode t) = parseErrors (decode (t ++ u)) ++ [.unfinished inner outer] := by
  have ht : needsMore (decode [41, 32, 40, 97, 32, 58, 116, 32, 39]) := by decide +kernel
  exact ⟨ht, incomplete_iff_completable.2 _ ht⟩

end Parser

end SmallLisp
