import SmallLisp.Proofs.Expr.Unbalanced
import SmallLisp.Proofs.Form.Spans
import SmallLisp.Proofs.Interpreter.Located
import SmallLisp.Proofs.Source.Lines

namespace SmallLisp

open SmallLisp.Span (LiesIn)

theorem Span.Joins.liesIn {text : List Char} {s : Span} {ss : List Span} (h : s.Joins ss)
    (hss : ∀ t ∈ ss, t.LiesIn text) : s.LiesIn text := by
  obtain ⟨t, ht, u, hu, rfl⟩ := h
  exact (hss t (List.mem_of_mem_head? ht)).join (hss u (List.mem_of_mem_getLast? hu))

namespace Parser

variable {text : List Char}

theorem liesIn_of_mem_places {event : Event} (h : event ∈ parse text) {s : Span}
    (hs : s ∈ event.places) : s.LiesIn text := by
  have hsub := places_sublist_of_mem_run h
  rw [Stack.empty, pending_nil, List.map_nil, List.nil_append, flatMap_places_ofScanned] at hsub
  obtain ⟨i, hi, rfl⟩ := List.mem_map.mp (hsub.subset hs)
  exact (Scanner.exact_of_mem_scan hi).1.liesIn

end Parser

theorem Form.LiesIn.span {text : List Char} {f : Form} (h : f.LiesIn text) : f.span.LiesIn text :=
  span_of_tokens Span.LiesIn.join h

theorem Partial.liesIn_of_places {text : List Char} {p : Partial}
    (h : ∀ s ∈ p.places, s.LiesIn text) : p.span.LiesIn text := by
  rw [places_eq] at h
  obtain ⟨hsite, hforms⟩ := List.forall_mem_cons.mp h
  refine p.joins_outline.liesIn (List.forall_mem_cons.mpr ⟨hsite, List.forall_mem_map.mpr fun f hf => ?_⟩)
  refine Form.LiesIn.span fun t ht => hforms t.span ?_
  exact List.mem_flatMap.mpr ⟨f, hf, List.mem_map_of_mem ht⟩

namespace ParseError

theorem diagnose_liesIn {f : File} {e : ParseError} (he : e ∈ parseErrors f.contents) {d : Diagnostic}
    (hd : d ∈ e.diagnose f) : d.file = f ∧ d.span.LiesIn f.contents := by
  have hplaces : ∀ s ∈ e.places, s.LiesIn f.contents := fun s hs =>
    Parser.liesIn_of_mem_places (Parser.mem_parseErrors_iff.mp he) hs
  obtain ⟨hpartials, hcomplaint⟩ := List.forall_mem_append.mp hplaces
  obtain ⟨⟨span, message⟩, hmem, rfl⟩ := List.mem_map.mp hd
  refine ⟨rfl, ?_⟩
  rcases List.mem_append.mp hmem with hmem | hmem
  · refine hcomplaint span ?_
    rw [Option.toList_map]
    exact List.mem_map_of_mem hmem
  · obtain ⟨p, hp, heq⟩ := List.mem_map.mp hmem
    obtain ⟨rfl, rfl⟩ := Prod.mk.inj heq
    refine Partial.liesIn_of_places fun s hs => hpartials s ?_
    exact List.mem_flatMap.mpr ⟨p, List.mem_reverse.mp hp, hs⟩

end ParseError

theorem ReadError.diagnose_liesIn {f : File} {e : ReadError}
    (he : e ∈ Form.readErrors (some f.toFileRef) (parseForms f.contents)) {d : Diagnostic}
    (hd : d ∈ e.diagnose f) : d.file = f ∧ d.span.LiesIn f.contents := by
  obtain ⟨form, hform, herror⟩ := List.mem_filterMap.mp he
  have hread : form.read (some f.toFileRef) = .error e := by
    cases hread : form.read (some f.toFileRef) with
    | ok x => simp [hread] at herror
    | error e' => simpa [hread] using herror
  obtain ⟨g, rfl, hpart, _⟩ := Form.exists_unbalanced_of_read hread
  have hlies := Form.liesIn_of_mem_parse (Parser.mem_parseForms_iff.mp hform)
  obtain rfl := List.mem_singleton.mp hd
  exact ⟨rfl, Form.LiesIn.span fun t ht => hlies t (hpart.sublist.subset ht)⟩

theorem Halt.Located.diagnose_liesIn {files : List File} {halt : Halt}
    (h : halt.Located (Site.LiesIn files)) {file : File}
    (hfile : ∀ f ∈ files, f.toFileRef = file.toFileRef → f = file) {d : Diagnostic}
    (hd : d ∈ halt.diagnose file) : d.file = file ∧ d.span.LiesIn file.contents := by
  cases halt with
  | error err =>
      obtain ⟨subject, hsubject, hlocated⟩ := h
      obtain ⟨span, hspan, rfl⟩ := List.mem_map.mp hd
      obtain ⟨site, hsite, hfound⟩ := List.exists_of_findSome?_eq_some (Option.mem_toList.mp hspan)
      rw [EvalError.prov, hsubject] at hsite
      obtain ⟨f, hf, span', rfl, hlies⟩ := hlocated.traced.sites site hsite
      split at hfound
      · next href =>
          obtain rfl := hfile f hf (Option.some.inj href)
          obtain rfl := Option.some.inj hfound
          exact ⟨rfl, hlies⟩
      · cases hfound
  | underflow => cases hd
  | outOfFuel => cases hd

namespace Interpreter

/-- An interpreter that has run some files since it was new, and may have been reset between them. -/
inductive Reached (options : Options) (named : Bool) : List File → Interpreter → Prop
  | new : Reached options named [] (new options named)
  | opened {ran : List File} {it : Interpreter} (name : String) (contents : List Char) :
      Reached options named ran it → Reached options named ran (it.openFile name contents).2
  | run {ran : List File} {it : Interpreter} (fuel : Nat) (file : File) :
      Reached options named ran it → Reached options named (file :: ran) (it.runFile fuel file).2
  | reset {ran : List File} {it : Interpreter} :
      Reached options named ran it → Reached options named ran it.reset

variable {options : Options} {named : Bool} {ran files : List File} {it : Interpreter}

theorem Reached.traced (h : Reached options named ran it) (hran : ∀ f ∈ ran, f ∈ files) :
    it.machine.env.Traced (Site.LiesIn files) := by
  induction h with
  | new => exact traced_start named
  | opened _ _ _ ih => exact ih hran
  | run fuel file _ ih =>
      obtain ⟨hfile, hran⟩ := List.forall_mem_cons.mp hran
      exact (located_runFile fuel hfile (ih hran)).2
  | reset _ _ => exact traced_start _

theorem failure_cases {fuel : Nat} {file : File} {failure : Failure}
    (h : failure ∈ failures (it.runFile fuel file).1) :
    (∃ e ∈ parseErrors file.contents, failure = .parse e) ∨
      (∃ e ∈ Form.readErrors (some file.toFileRef) (parseForms file.contents), failure = .read e) ∨
      ∃ halt, .error (.eval halt) ∈ (it.runFile fuel file).1 ∧ failure = .eval halt := by
  obtain ⟨hwoven, _⟩ := woven_runEvents it.options fuel file.toFileRef
    (Parser.fault_not_mem_parse file.contents) it.machine
  rw [runFile_eq] at h ⊢
  cases failure with
  | parse e =>
      refine .inl ⟨e, ?_, rfl⟩
      rw [parseErrors, ← hwoven.parse_eq]
      exact List.mem_filterMap.mpr ⟨_, h, rfl⟩
  | read e =>
      refine .inr (.inl ⟨e, ?_, rfl⟩)
      rw [parseForms, ← hwoven.read_eq]
      exact List.mem_filterMap.mpr ⟨_, h, rfl⟩
  | eval halt =>
      refine .inr (.inr ⟨halt, ?_, rfl⟩)
      obtain ⟨outcome, houtcome, heq⟩ := List.mem_filterMap.mp h
      cases outcome with
      | ok value => cases heq
      | error failure =>
          obtain rfl := Option.some.inj heq
          exact houtcome
  | source message => exact absurd h (hwoven.no_source message)

theorem Reached.diagnose_liesIn (h : Reached options named ran it) {fuel : Nat} {file : File}
    (hfile : ∀ f ∈ ran, f.toFileRef = file.toFileRef → f = file) {failure : Failure}
    (hfailure : failure ∈ failures (it.runFile fuel file).1) {d : Diagnostic}
    (hd : d ∈ failure.diagnose file) : d.file = file ∧ d.span.LiesIn file.contents := by
  rcases failure_cases hfailure with ⟨e, he, rfl⟩ | ⟨e, he, rfl⟩ | ⟨halt, hhalt, rfl⟩
  · exact e.diagnose_liesIn he hd
  · exact e.diagnose_liesIn he hd
  · have htraced : it.machine.env.Traced (Site.LiesIn (file :: ran)) :=
      h.traced fun _ => List.mem_cons_of_mem file
    have hlocated := (located_runFile fuel List.mem_cons_self htraced).1 halt hhalt
    exact hlocated.diagnose_liesIn (List.forall_mem_cons.mpr ⟨fun _ => rfl, hfile⟩) hd

/-- The line found for a span that starts behind the first characters of a file is the one that the
position names. All that is reported of a run of a file, whatever has been run before, is about a part of
the file, so that the marks stand in the line or just behind it. -/
theorem reports_show_their_lines :
    (∀ (f : File) (s : Span) (offset : Nat), offset ≤ f.contents.length →
      s.start = .behind f.contents offset → (f.lineOf s).Shows f.contents offset) ∧
    ∀ (options : Options) (named : Bool) (ran : List File) (it : Interpreter),
      Reached options named ran it → ∀ (fuel : Nat) (file : File),
      (∀ f ∈ ran, f.toFileRef = file.toFileRef → f = file) →
      ∀ failure ∈ failures (it.runFile fuel file).1, ∀ d ∈ failure.diagnose file,
        d.file = file ∧ d.span.LiesIn file.contents ∧ 0 ≤ d.span.start.column ∧
          d.span.start.column ≤ d.line.length ∧ 0 ≤ d.extent := by
  refine ⟨fun f s offset hoffset hstart => ?_, ?_⟩
  · rw [File.lineOf, hstart, Position.behind_offset hoffset]
    exact Line.shows_enclosing hoffset
  · intro options named ran it h fuel file hfile failure hfailure d hd
    obtain ⟨rfl, hlies⟩ := h.diagnose_liesIn hfile hfailure hd
    exact ⟨rfl, hlies, Diagnostic.caret_within_line hlies⟩

theorem reports_show_their_lines_of_open_bracket :
    -- An earlier file has the same name; the end of the later one is an empty line.
    let earlier : File := ⟨⟨0, "in"⟩, ['b']⟩
    let file : File := ⟨⟨1, "in"⟩, ['a', '\n', '(', '\n']⟩
    let bracket : Span := ⟨⟨2, 1, 0⟩, ⟨3, 1, 1⟩⟩
    let failure : Failure := .parse (.unfinished (.group .paren bracket []) [])
    let d : Diagnostic := ⟨file, bracket, "unclosed '('"⟩
    let it := ((new .default true).runFile 2 earlier).2
    (file.lineOf ⟨⟨4, 2, 0⟩, ⟨4, 2, 0⟩⟩).Shows file.contents 4 ∧
      Reached .default true [earlier] it ∧ (∀ f ∈ [earlier], f.toFileRef = file.toFileRef → f = file) ∧
      failure ∈ failures (it.runFile 2 file).1 ∧ d ∈ failure.diagnose file ∧
      d.span.LiesIn file.contents ∧ d.span.start.column ≤ d.line.length ∧ 0 ≤ d.extent := by
  intro earlier file bracket failure d it
  have hreached : Reached .default true [earlier] it := .run 2 earlier .new
  have hfile : ∀ f ∈ [earlier], f.toFileRef = file.toFileRef → f = file := by
    simp [earlier, file]
  have hfailure : failure ∈ failures (it.runFile 2 file).1 := List.mem_of_getElem? (i := 1) rfl
  have hd : d ∈ failure.diagnose file := List.mem_of_getElem? (i := 0) rfl
  obtain ⟨hline, hreports⟩ := reports_show_their_lines
  obtain ⟨_, hlies, _, hcolumn, hextent⟩ :=
    hreports .default true _ it hreached 2 file hfile failure hfailure d hd
  exact ⟨hline file _ 4 (by decide) rfl, hreached, hfile, hfailure, hd, hlies, hcolumn, hextent⟩

end Interpreter

end SmallLisp
