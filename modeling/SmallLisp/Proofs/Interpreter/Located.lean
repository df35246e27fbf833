import SmallLisp.Proofs.Eval.Located
import SmallLisp.Proofs.Interpreter.Streaming

namespace SmallLisp

def Site.LiesIn (files : List File) (site : Site) : Prop :=
  ∃ f ∈ files, ∃ span : Span, site = ⟨some span, some f.toFileRef⟩ ∧ span.LiesIn f.contents

theorem Form.knows_of_mem {files : List File} {f : File} (hf : f ∈ files) :
    Form.Knows (Site.LiesIn files) (some f.toFileRef) f.contents :=
  fun span hspan => ⟨f, hf, span, rfl, hspan⟩

theorem EvalError.diagnose_ne_nil {err : EvalError} {f : File} {span : Span}
    (h : ⟨some span, some f.toFileRef⟩ ∈ err.prov) : err.diagnose f ≠ [] := by
  have hfirst : err.prov.firstIn? f.toFileRef ≠ none := by
    intro hnone
    have hsite := List.findSome?_eq_none_iff.mp hnone _ h
    simp at hsite
  simpa [diagnose] using hfirst

theorem Halt.Located.sites {files : List File} {err : EvalError}
    (h : (Halt.error err).Located (Site.LiesIn files)) :
    err.prov ≠ [] ∧ (∀ site ∈ err.prov, site.LiesIn files) ∧ ∃ f ∈ files, err.diagnose f ≠ [] := by
  obtain ⟨subject, hsubject, hlocated⟩ := h
  have hprov : err.prov = subject.prov := by rw [EvalError.prov, hsubject]
  have hplaced : err.prov ≠ [] := hprov ▸ hlocated.placed
  have hsites : ∀ site ∈ err.prov, site.LiesIn files := hprov ▸ hlocated.traced.sites
  obtain ⟨site, hsite⟩ := List.exists_mem_of_ne_nil _ hplaced
  obtain ⟨f, hf, span, rfl, _⟩ := hsites site hsite
  exact ⟨hplaced, hsites, f, hf, EvalError.diagnose_ne_nil hsite⟩

namespace Interpreter

variable {known : Site → Prop} {text : List Char}

theorem traced_start (named : Bool) : (start named).env.Traced known := by
  cases named with
  | true => exact Env.traced_standard
  | false => exact Env.traced_empty

theorem located_runEvent (options : Options) (fuel : Nat) {file : FileRef}
    (hknows : Form.Knows known (some file) text) {m : Machine} (hm : m.env.Traced known)
    {event : Parser.Event} (hevent : ∀ f, event = .form f → f.LiesIn text) :
    (∀ halt, (runEvent options fuel file m event).1 = .error (.eval halt) → halt.Located known) ∧
      (runEvent options fuel file m event).2.env.Traced known := by
  cases event with
  | error e => exact ⟨by rintro _ ⟨⟩, hm⟩
  | fault message => exact ⟨by rintro _ ⟨⟩, hm⟩
  | form f =>
      simp only [runEvent]
      cases hread : f.read (some file) with
      | error e => exact ⟨by rintro _ ⟨⟩, hm⟩
      | ok e =>
          have heval := Eval.locates_eval options fuel
            (Form.located_read hknows f (hevent f rfl) e hread)
          cases hr : Eval.eval options fuel e m with
          | ok value m' =>
              simp only [hr]
              exact ⟨by rintro _ ⟨⟩, (heval.value hr hm).2⟩
          | error halt m' =>
              obtain ⟨hhalt, hm'⟩ := heval.failure hr hm
              simp only [hr]
              refine ⟨?_, hm'⟩
              rintro _ ⟨⟩
              exact hhalt

theorem located_runEvents (options : Options) (fuel : Nat) {file : FileRef}
    (hknows : Form.Knows known (some file) text) {m : Machine} (hm : m.env.Traced known)
    {events : List Parser.Event} (hevents : ∀ f, .form f ∈ events → f.LiesIn text) :
    (∀ halt, .error (.eval halt) ∈ (runEvents options fuel file m events).1 → halt.Located known) ∧
      (runEvents options fuel file m events).2.env.Traced known := by
  induction events generalizing m with
  | nil => exact ⟨fun _ h => (List.not_mem_nil h).elim, hm⟩
  | cons event events ih =>
      have hevent : ∀ f, event = .form f → f.LiesIn text :=
        fun f hf => hevents f (hf ▸ List.mem_cons_self)
      obtain ⟨hfirst, hm'⟩ := located_runEvent options fuel hknows hm hevent
      obtain ⟨hrest, hm''⟩ := ih hm' fun f hf => hevents f (List.mem_cons_of_mem event hf)
      refine ⟨fun halt hhalt => ?_, hm''⟩
      rcases List.mem_cons.mp hhalt with hhalt | hhalt
      · exact hfirst halt hhalt.symm
      · exact hrest halt hhalt

variable {files : List File}

theorem located_runFile {it : Interpreter} (fuel : Nat) {f : File} (hf : f ∈ files)
    (hit : it.machine.env.Traced (Site.LiesIn files)) :
    (∀ halt, .error (.eval halt) ∈ (it.runFile fuel f).1 → halt.Located (Site.LiesIn files)) ∧
      (it.runFile fuel f).2.machine.env.Traced (Site.LiesIn files) := by
  rw [runFile_eq]
  exact located_runEvents it.options fuel (Form.knows_of_mem hf) hit fun _ =>
    Form.liesIn_of_mem_parse

def runFiles (it : Interpreter) (fuel : Nat) (files : List File) : Interpreter :=
  files.foldl (fun it f => (it.runFile fuel f).2) it

theorem traced_runFiles {it : Interpreter} (fuel : Nat) {run : List File}
    (hrun : ∀ f ∈ run, f ∈ files) (hit : it.machine.env.Traced (Site.LiesIn files)) :
    (it.runFiles fuel run).machine.env.Traced (Site.LiesIn files) := by
  induction run generalizing it with
  | nil => exact hit
  | cons f fs ih =>
      obtain ⟨hf, hfs⟩ := List.forall_mem_cons.mp hrun
      exact ih hfs (located_runFile fuel hf hit).2

/-- Whatever files an interpreter has run: an error of the next one has places, all of them lie in
these files, and it can be shown in one of them. -/
theorem errors_lie_in_files (options : Options) (named : Bool) (fuel : Nat) (files : List File)
    (file : File) (err : EvalError)
    (h : .error (.eval (.error err)) ∈
      (((new options named).runFiles fuel files).runFile fuel file).1) :
    err.prov ≠ [] ∧ (∀ site ∈ err.prov, site.LiesIn (files ++ [file])) ∧
      ∃ f ∈ files ++ [file], (Failure.eval (.error err)).diagnose f ≠ [] := by
  have hfiles : ∀ f ∈ files, f ∈ files ++ [file] := fun _ => List.mem_append_left [file]
  have hfile : file ∈ files ++ [file] := List.mem_append_right files List.mem_cons_self
  have hnew : (new options named).machine.env.Traced (Site.LiesIn (files ++ [file])) :=
    traced_start named
  have hit := traced_runFiles fuel hfiles hnew
  exact ((located_runFile fuel hfile hit).1 (.error err) h).sites

theorem errors_lie_in_files_of_quoted_operand :
    -- The first file binds a symbol, which the second one adds.
    let first : File := ⟨⟨0, "first"⟩, ['(', 'd', 'e', 'f', ' ', 'x', ' ', '\'', 'y', ')']⟩
    let second : File := ⟨⟨1, "second"⟩, ['(', '+', ' ', 'x', ')']⟩
    let written : Site := ⟨some ⟨⟨8, 0, 8⟩, ⟨9, 0, 9⟩⟩, some first.toFileRef⟩
    let referred : Site := ⟨some ⟨⟨3, 0, 3⟩, ⟨4, 0, 4⟩⟩, some second.toFileRef⟩
    let err : EvalError := ⟨.wrongType "int", some (.symbol "y" [written, referred])⟩
    .error (.eval (.error err)) ∈
        (((new .default true).runFiles 4 [first]).runFile 4 second).1 ∧
      err.prov ≠ [] ∧ (∀ site ∈ err.prov, site.LiesIn [first, second]) ∧
      ∃ f ∈ [first, second], (Failure.eval (.error err)).diagnose f ≠ [] := by
  -- Written out, since evaluation is slow under local definitions.
  have hrun : (((new .default true).runFiles 4
      [⟨⟨0, "first"⟩, ['(', 'd', 'e', 'f', ' ', 'x', ' ', '\'', 'y', ')']⟩]).runFile 4
        ⟨⟨1, "second"⟩, ['(', '+', ' ', 'x', ')']⟩).1.head? = some (.error (.eval (.error
          ⟨.wrongType "int", some (.symbol "y" [⟨some ⟨⟨8, 0, 8⟩, ⟨9, 0, 9⟩⟩, some ⟨0, "first"⟩⟩,
            ⟨some ⟨⟨3, 0, 3⟩, ⟨4, 0, 4⟩⟩, some ⟨1, "second"⟩⟩])⟩))) := rfl
  have hmem := List.mem_of_head? hrun
  exact ⟨hmem, errors_lie_in_files .default true 4 _ _ _ hmem⟩

end Interpreter

end SmallLisp
