import SmallLisp.Interpreter
import SmallLisp.Proofs.Form.Incremental

namespace SmallLisp

namespace Failure

def parse? : Failure → Option ParseError
  | .parse e => some e
  | _ => none

def read? : Failure → Option ReadError
  | .read e => some e
  | _ => none

def eval? : Failure → Option Halt
  | .eval halt => some halt
  | _ => none

end Failure

namespace Form

variable {file : Option FileRef} {f : Form}

theorem readAll_cons_of_ok {e : Expr} (h : f.read file = .ok e) (fs : List Form) :
    readAll file (f :: fs) = e :: readAll file fs := by
  simp [readAll, h, Except.toOption]

theorem readAll_cons_of_error {e : ReadError} (h : f.read file = .error e) (fs : List Form) :
    readAll file (f :: fs) = readAll file fs := by
  simp [readAll, h, Except.toOption]

theorem readErrors_cons_of_ok {e : Expr} (h : f.read file = .ok e) (fs : List Form) :
    readErrors file (f :: fs) = readErrors file fs := by
  simp [readErrors, h]

theorem readErrors_cons_of_error {e : ReadError} (h : f.read file = .error e) (fs : List Form) :
    readErrors file (f :: fs) = e :: readErrors file fs := by
  simp [readErrors, h]

end Form

namespace Interpreter

variable (options : Options) (fuel : Nat)

theorem runWithin_eq_runEvents (file : FileRef) {p : Parser} {events : List Parser.Event}
    (h : p.Pending events) {steps : Nat} (hsteps : events.length ≤ steps) (m : Machine) :
    runWithin options fuel file steps p m = runEvents options fuel file m events := by
  induction steps generalizing p events m with
  | zero =>
      obtain rfl := List.eq_nil_of_length_eq_zero (Nat.le_zero.mp hsteps)
      rfl
  | succ steps ih =>
      obtain ⟨hfirst, hrest⟩ := h.next
      cases hnext : p.next with
      | mk event? p' =>
          rw [hnext] at hfirst hrest
          cases events with
          | nil =>
              obtain rfl : event? = none := hfirst
              simp only [runWithin, hnext, runEvents]
          | cons event events =>
              obtain rfl : event? = some event := hfirst
              have hlater := ih hrest (Nat.le_of_succ_le_succ hsteps)
              simp only [List.tail_cons] at hlater
              simp only [runWithin, hnext, runEvents, hlater]

theorem runFile_eq (it : Interpreter) (file : File) :
    it.runFile fuel file =
      let ran := runEvents it.options fuel file.toFileRef it.machine (parse file.contents)
      (ran.1, { it with machine := ran.2 }) := by
  have hsteps : (parse file.contents).length ≤ file.contents.length + 2 :=
    Nat.le_succ_of_le (Parser.length_parse_le _)
  rw [runFile, runWithin_eq_runEvents it.options fuel _ (Parser.pending_ofText _) hsteps]

theorem runText_eq (it : Interpreter) (text : List Char) :
    it.runText fuel text =
      let ran := runEvents it.options fuel ⟨it.opened, inputName⟩ it.machine (parse text)
      (ran.1, { it with machine := ran.2, opened := it.opened + 1 }) := by
  simp only [runText, openFile, runFile_eq]

def evalOne (m : Machine) (e : Expr) : Except Halt Expr × Machine :=
  match Eval.eval options fuel e m with
  | .ok value m' => (.ok value, m')
  | .error halt m' => (.error halt, m')

def evalAll : Machine → List Expr → List (Except Halt Expr) × Machine
  | m, [] => ([], m)
  | m, e :: es =>
      let (outcome, m') := evalOne options fuel m e
      let (outcomes, m'') := evalAll m' es
      (outcome :: outcomes, m'')

def values (evaluated : List (Except Halt Expr)) : List Expr :=
  evaluated.filterMap (·.toOption)

def halts (evaluated : List (Except Halt Expr)) : List Halt :=
  evaluated.filterMap fun
    | .ok _ => none
    | .error halt => some halt

/-- Outcomes that interleave errors of the parser, errors of reading and outcomes of evaluations, each
in order. -/
inductive Woven :
    List ParseError → List ReadError → List (Except Halt Expr) → List (Except Failure Expr) → Prop
  | nil : Woven [] [] [] []
  | parse {ps rs es os} (e : ParseError) : Woven ps rs es os →
      Woven (e :: ps) rs es (.error (.parse e) :: os)
  | read {ps rs es os} (e : ReadError) : Woven ps rs es os →
      Woven ps (e :: rs) es (.error (.read e) :: os)
  | value {ps rs es os} (value : Expr) : Woven ps rs es os →
      Woven ps rs (.ok value :: es) (.ok value :: os)
  | halt {ps rs es os} (halt : Halt) : Woven ps rs es os →
      Woven ps rs (.error halt :: es) (.error (.eval halt) :: os)

namespace Woven

variable {ps : List ParseError} {rs : List ReadError} {es : List (Except Halt Expr)}
  {os : List (Except Failure Expr)}

theorem results_eq (h : Woven ps rs es os) : results os = values es := by
  induction h with
  | nil => rfl
  | value v _ ih => exact congrArg (v :: ·) ih
  | _ => assumption

theorem parse_eq (h : Woven ps rs es os) : (failures os).filterMap (·.parse?) = ps := by
  induction h with
  | nil => rfl
  | parse e _ ih => exact congrArg (e :: ·) ih
  | _ => assumption

theorem read_eq (h : Woven ps rs es os) : (failures os).filterMap (·.read?) = rs := by
  induction h with
  | nil => rfl
  | read e _ ih => exact congrArg (e :: ·) ih
  | _ => assumption

theorem eval_eq (h : Woven ps rs es os) : (failures os).filterMap (·.eval?) = halts es := by
  induction h with
  | nil => rfl
  | halt e _ ih => exact congrArg (e :: ·) ih
  | _ => assumption

theorem no_source (h : Woven ps rs es os) (message : String) : .source message ∉ failures os := by
  induction h with
  | nil => exact List.not_mem_nil
  | value _ _ ih => exact ih
  | _ _ _ ih => exact List.not_mem_cons_of_ne_of_not_mem nofun ih

end Woven

theorem woven_runEvents (file : FileRef) {events : List Parser.Event}
    (hevents : ∀ message, .fault message ∉ events) (m : Machine) :
    let forms := events.filterMap (·.form?)
    let evaluated := evalAll options fuel m (Form.readAll (some file) forms)
    let ran := runEvents options fuel file m events
    Woven (events.filterMap (·.error?)) (Form.readErrors (some file) forms) evaluated.1 ran.1 ∧
      ran.2 = evaluated.2 := by
  induction events generalizing m with
  | nil => exact ⟨.nil, rfl⟩
  | cons event events ih =>
      have hrest : ∀ message, .fault message ∉ events := fun message hmem =>
        hevents message (List.mem_cons_of_mem event hmem)
      cases event with
      | fault message => exact absurd List.mem_cons_self (hevents message)
      | error e =>
          obtain ⟨hwoven, hm⟩ := ih hrest m
          exact ⟨.parse e hwoven, hm⟩
      | form f =>
          have hforms : (Parser.Event.form f :: events).filterMap (·.form?) =
              f :: events.filterMap (·.form?) := rfl
          have herrors : (Parser.Event.form f :: events).filterMap (·.error?) =
              events.filterMap (·.error?) := rfl
          cases hread : f.read (some file) with
          | error e =>
              obtain ⟨hwoven, hm⟩ := ih hrest m
              simp only [hforms, herrors, Form.readAll_cons_of_error hread,
                Form.readErrors_cons_of_error hread, runEvents, runEvent, hread]
              exact ⟨.read e hwoven, hm⟩
          | ok e =>
              simp only [hforms, herrors, Form.readAll_cons_of_ok hread,
                Form.readErrors_cons_of_ok hread, runEvents, runEvent, hread, evalAll, evalOne]
              cases heval : Eval.eval options fuel e m with
              | ok value m' =>
                  obtain ⟨hwoven, hm⟩ := ih hrest m'
                  exact ⟨.value value hwoven, hm⟩
              | error halt m' =>
                  obtain ⟨hwoven, hm⟩ := ih hrest m'
                  exact ⟨.halt halt hwoven, hm⟩

inductive Contributes (file : FileRef) (f : Form) : Except Failure Expr → Prop
  | unread {e : ReadError} : f.read (some file) = .error e → Contributes file f (.error (.read e))
  | value {e value : Expr} {m m' : Machine} : f.read (some file) = .ok e →
      Eval.eval options fuel e m = .ok value m' → Contributes file f (.ok value)
  | failed {e : Expr} {halt : Halt} {m m' : Machine} : f.read (some file) = .ok e →
      Eval.eval options fuel e m = .error halt m' → Contributes file f (.error (.eval halt))

def isOfForm : Except Failure Expr → Bool
  | .error (.parse _) => false
  | _ => true

theorem Contributes.isOfForm {file : FileRef} {f : Form} {outcome : Except Failure Expr}
    (h : Contributes options fuel file f outcome) : isOfForm outcome = true := by
  cases h <;> rfl

theorem contributes_runEvent (file : FileRef) (m : Machine) (f : Form) :
    Contributes options fuel file f (runEvent options fuel file m (.form f)).1 := by
  simp only [runEvent]
  split
  · next e hread => exact .unread hread
  · next e hread =>
      split
      · next value m' heval => exact .value hread heval
      · next halt m' heval => exact .failed hread heval

theorem contributes_runEvents (file : FileRef) {events : List Parser.Event}
    (hevents : ∀ message, .fault message ∉ events) (m : Machine) :
    List.Forall₂ (Contributes options fuel file) (events.filterMap (·.form?))
      ((runEvents options fuel file m events).1.filter isOfForm) := by
  induction events generalizing m with
  | nil => exact .nil
  | cons event events ih =>
      have hrest : ∀ message, .fault message ∉ events := fun message hmem =>
        hevents message (List.mem_cons_of_mem event hmem)
      cases event with
      | fault message => exact absurd List.mem_cons_self (hevents message)
      | error e => exact ih hrest m
      | form f =>
          have hfirst := contributes_runEvent options fuel file m f
          simp only [runEvents]
          rw [List.filter_cons_of_pos (hfirst.isOfForm options fuel)]
          exact .cons hfirst (ih hrest _)

/-- With the stages one after another: the results are the values among the evaluations of all
expressions; the failures are the errors of parsing and of reading and the failed evaluations, each in
order; the interpreter is left as by the evaluations; and each form that is parsed contributes one
outcome of its own. -/
theorem streaming_agrees_with_stages (it : Interpreter) (file : File) :
    let ran := it.runFile fuel file
    let forms := parseForms file.contents
    let exprs := Form.readAll (some file.toFileRef) forms
    let evaluated := evalAll it.options fuel it.machine exprs
    results ran.1 = values evaluated.1 ∧
      (failures ran.1).filterMap (·.parse?) = parseErrors file.contents ∧
      (failures ran.1).filterMap (·.read?) = Form.readErrors (some file.toFileRef) forms ∧
      (failures ran.1).filterMap (·.eval?) = halts evaluated.1 ∧
      (∀ message, .source message ∉ failures ran.1) ∧
      ran.2 = { it with machine := evaluated.2 } ∧
      List.Forall₂ (Contributes it.options fuel file.toFileRef) forms (ran.1.filter isOfForm) := by
  intro ran forms exprs evaluated
  have hfaults := Parser.fault_not_mem_parse file.contents
  obtain ⟨hwoven, hm⟩ := woven_runEvents it.options fuel file.toFileRef hfaults it.machine
  have hcontributes := contributes_runEvents it.options fuel file.toFileRef hfaults it.machine
  have hran := runFile_eq fuel it file
  simp only [ran, hran]
  exact ⟨hwoven.results_eq, hwoven.parse_eq, hwoven.read_eq, hwoven.eval_eq, hwoven.no_source,
    congrArg (fun m => { it with machine := m }) hm, hcontributes⟩

end Interpreter

end SmallLisp
