import SmallLisp.Proofs.Eval.Scope
import SmallLisp.Proofs.Eval.Untouched
import SmallLisp.Proofs.Form.Printing
import SmallLisp.Proofs.Interpreter.Chunks

namespace SmallLisp

/-- As at the start, but for the calls and the nesting counted so far. -/
structure Machine.Idle (m : Machine) : Prop where
  env : m.env = .empty
  depth : m.depth = 0
  expansions : m.stats.expansions = 0

namespace Machine.Idle

variable {m n : Machine}

theorem inert (h : m.Idle) : m.env.current.Inert := by
  intro e he
  rw [h.env] at he
  cases he

theorem alike (hm : m.Idle) (hn : n.Idle) : m.Alike (fun _ _ => True) n :=
  ⟨by rw [hm.env, hn.env], hm.depth.trans hn.depth.symm, trivial⟩

theorem after_eval (h : m.Idle) (options : Options) (fuel : Nat) {e : Expr} (he : e.Inert) :
    ((Eval.eval options fuel e).after m).Idle := by
  have hspares := (Eval.untouching_eval options fuel he).spares h.inert
  have hbalanced := (Eval.eval_extends options fuel e m).1.toBalanced
  exact ⟨hspares.env.trans h.env, hbalanced.depth.trans h.depth,
    hspares.expansions.trans h.expansions⟩

end Machine.Idle

namespace Interpreter

variable (options : Options) (fuel : Nat) {m n : Machine}

theorem idle_start : (start false).Idle := ⟨rfl, rfl, rfl⟩

theorem idle_runEvent (hm : m.Idle) (file : FileRef) (event : Parser.Event) :
    (runEvent options fuel file m event).2.Idle := by
  cases event with
  | error e => exact hm
  | fault message => exact hm
  | form f =>
      simp only [runEvent]
      cases hread : f.read (some file) with
      | error e => exact hm
      | ok e =>
          have hafter := hm.after_eval options fuel (Form.tame_of_read hread)
          simp only [EvalM.after] at hafter
          cases hr : Eval.eval options fuel e m with
          | ok value m' => simpa only [hr] using hafter
          | error halt m' => simpa only [hr] using hafter

theorem outcome_eq_of_idle (hm : m.Idle) (hn : n.Idle) (file : FileRef) (event : Parser.Event) :
    (runEvent options fuel file m event).1 = (runEvent options fuel file n event).1 := by
  cases event with
  | error e => rfl
  | fault message => rfl
  | form f =>
      simp only [runEvent]
      cases f.read (some file) with
      | error e => rfl
      | ok e =>
          have hsame := (Eval.steady_eval Stats.kept_any options fuel e).alike m n (hm.alike hn)
          simp only
          generalize Eval.eval options fuel e m = r at hsame ⊢
          generalize Eval.eval options fuel e n = s at hsame ⊢
          cases hsame with
          | ok _ => rfl
          | error _ => rfl

theorem runEvents_of_idle (hm : m.Idle) (file : FileRef) (events : List Parser.Event) :
    (runEvents options fuel file m events).1 =
        events.map (fun event => (runEvent options fuel file (start false) event).1) ∧
      (runEvents options fuel file m events).2.Idle := by
  induction events generalizing m with
  | nil => exact ⟨rfl, hm⟩
  | cons event events ih =>
      obtain ⟨houtcomes, hidle⟩ := ih (idle_runEvent options fuel hm file event)
      refine ⟨?_, hidle⟩
      rw [List.map_cons, ← outcome_eq_of_idle options fuel hm idle_start, ← houtcomes]
      rfl

def runTexts (it : Interpreter) (fuel : Nat) (texts : List (List Char)) : Interpreter :=
  texts.foldl (fun it text => (it.runText fuel text).2) it

theorem idle_runTexts {it : Interpreter} (texts : List (List Char))
    (hit : it.machine.Idle) :
    (it.runTexts fuel texts).machine.Idle ∧ (it.runTexts fuel texts).options = it.options := by
  induction texts generalizing it with
  | nil => exact ⟨hit, rfl⟩
  | cons text texts ih =>
      have hidle : (it.runText fuel text).2.machine.Idle := by
        rw [runText_eq]
        exact (runEvents_of_idle it.options fuel hit _ _).2
      exact ih hidle

theorem runText_form (it : Interpreter) (file : FileRef) {f : Form}
    (hf : f.Spellable) :
    (it.runText fuel f.text.toList).1.map bareOutcome =
      [bareOutcome (runEvent it.options fuel file it.machine (.form f)).1] := by
  have hjoined : Text.Joined ([f].map Form.text) f.text.toList := .single
  have hparse : (parse f.text.toList).map Parser.Event.bare = [Parser.Event.form f].map .bare :=
    Parser.parse_joined (by simpa using hf) hjoined
  rw [runText_eq]
  exact (runEvents_congr it.options fuel ⟨it.opened, inputName⟩ file rfl hparse).1

/-- Without names at the start, whatever texts were run: nothing is bound, no checkpoint is open, no
macro was called; the forms of the next text have the outcomes they have at the start; and up to places
these are what their own texts give, each to a new interpreter. -/
theorem unnamed_forms_are_independent (options : Options) (fuel : Nat) (texts : List (List Char))
    (text : List Char) :
    let it := (new options false).runTexts fuel texts
    let alone (event : Parser.Event) : Except Failure Expr :=
      (runEvent options fuel ⟨it.opened, inputName⟩ (start false) event).1
    (it.machine.env.current = [] ∧ it.machine.env.depth = 0 ∧ it.machine.stats.expansions = 0) ∧
      (it.runText fuel text).1 = (parse text).map alone ∧
      ∀ f ∈ parseForms text, ((new options false).runText fuel f.text.toList).1.map bareOutcome =
        [bareOutcome (alone (.form f))] := by
  intro it alone
  obtain ⟨hidle, hoptions⟩ : it.machine.Idle ∧ it.options = options :=
    idle_runTexts fuel texts idle_start
  refine ⟨⟨?_, ?_, hidle.expansions⟩, ?_, ?_⟩
  · rw [hidle.env]
    rfl
  · rw [hidle.env]
    rfl
  · calc (it.runText fuel text).1
        = (runEvents it.options fuel ⟨it.opened, inputName⟩ it.machine (parse text)).1 := by
          rw [runText_eq]
      _ = (parse text).map fun event =>
            (runEvent it.options fuel ⟨it.opened, inputName⟩ (start false) event).1 :=
          (runEvents_of_idle it.options fuel hidle _ _).1
      _ = (parse text).map alone := by rw [hoptions]
  · intro f hf
    exact runText_form fuel (new options false) _ (Parser.spellable_of_mem_parseForms hf)

theorem unnamed_forms_are_independent_of_failed_quotation :
    -- The texts `(quote x)` and `y 'x`.
    let failing : List Char := ['(', 'q', 'u', 'o', 't', 'e', ' ', 'x', ')']
    let text : List Char := ['y', ' ', '\'', 'x']
    let f : Form := .marked .quote ⟨⟨2, 0, 2⟩, ⟨3, 0, 3⟩⟩ (.symbol "x" ⟨⟨3, 0, 3⟩, ⟨4, 0, 4⟩⟩)
    let it := (new .default false).runTexts 4 [failing]
    f ∈ parseForms text ∧ ((new .default false).runText 4 f.text.toList).1.map bareOutcome =
        [bareOutcome (runEvent .default 4 ⟨it.opened, inputName⟩ (start false) (.form f)).1] := by
  intro failing text f it
  have hf : f ∈ parseForms text := List.mem_of_getElem? (i := 1) rfl
  exact ⟨hf, (unnamed_forms_are_independent .default 4 [failing] text).2.2 f hf⟩

end Interpreter

end SmallLisp
