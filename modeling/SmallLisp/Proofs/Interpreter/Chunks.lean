import SmallLisp.Proofs.Eval.Provenance
import SmallLisp.Proofs.Expr.Reading
import SmallLisp.Proofs.Interpreter.Streaming
import SmallLisp.Proofs.Text.Utf8

namespace SmallLisp

def Failure.bare : Failure → Failure
  | .parse e => .parse e.bare
  | .source message => .source message
  | .read e => .read e.bare
  | .eval halt => .eval halt.bare

namespace Interpreter

open EvalM

def bareOutcome : Except Failure Expr → Except Failure Expr
  | .ok value => .ok value.bare
  | .error failure => .error failure.bare

theorem results_bare (outcomes : List (Except Failure Expr)) :
    (results outcomes).map Expr.bare = results (outcomes.map bareOutcome) := by
  induction outcomes with
  | nil => rfl
  | cons outcome outcomes ih =>
      cases outcome with
      | ok value => exact congrArg (value.bare :: ·) ih
      | error failure => exact ih

theorem failures_bare (outcomes : List (Except Failure Expr)) :
    (failures outcomes).map Failure.bare = failures (outcomes.map bareOutcome) := by
  induction outcomes with
  | nil => rfl
  | cons outcome outcomes ih =>
      cases outcome with
      | ok value => exact ih
      | error failure => exact congrArg (failure.bare :: ·) ih

variable (options : Options) (fuel : Nat)

theorem runForm_congr (file file' : FileRef) {m m' : Machine} {f f' : Form}
    (hm : m.bare = m'.bare) (hf : f.bare = f'.bare) :
    bareOutcome (runEvent options fuel file m (.form f)).1 =
        bareOutcome (runEvent options fuel file' m' (.form f')).1 ∧
      (runEvent options fuel file m (.form f)).2.bare =
        (runEvent options fuel file' m' (.form f')).2.bare := by
  have hread : Form.bareRead Expr.bare (f.read (some file)) =
      Form.bareRead Expr.bare (f'.read (some file')) := by
    rw [← Form.read_bare f (some file) none, hf, Form.read_bare f' (some file') none]
  simp only [runEvent]
  cases hr : f.read (some file) with
  | error e =>
      cases hr' : f'.read (some file') with
      | error e' =>
          simp only [hr, hr', Form.bareRead, Except.error.injEq] at hread
          exact ⟨by simp [bareOutcome, Failure.bare, hread], hm⟩
      | ok e' => simp [hr, hr', Form.bareRead] at hread
  | ok e =>
      cases hr' : f'.read (some file') with
      | error e' => simp [hr, hr', Form.bareRead] at hread
      | ok e' =>
          have he : e.bare = e'.bare := by simpa [hr, hr', Form.bareRead] using hread
          have hshadow : Shadows Expr.bare (Eval.eval options fuel e)
              (Eval.eval options fuel e'.bare) := he ▸ Eval.shadows_eval options fuel e
          have heval := hshadow.outcome_eq (Eval.shadows_eval options fuel e') hm
          cases hv : Eval.eval options fuel e m with
          | ok value n =>
              cases hv' : Eval.eval options fuel e' m' with
              | ok value' n' => simpa [hv, hv', EvalM.bareOutcome, bareOutcome] using heval
              | error halt' n' => simp [hv, hv', EvalM.bareOutcome] at heval
          | error halt n =>
              cases hv' : Eval.eval options fuel e' m' with
              | ok value' n' => simp [hv, hv', EvalM.bareOutcome] at heval
              | error halt' n' =>
                  simpa [hv, hv', EvalM.bareOutcome, bareOutcome, Failure.bare] using heval

theorem runEvent_congr (file file' : FileRef) {m m' : Machine} {event event' : Parser.Event}
    (hm : m.bare = m'.bare) (he : event.bare = event'.bare) :
    bareOutcome (runEvent options fuel file m event).1 =
        bareOutcome (runEvent options fuel file' m' event').1 ∧
      (runEvent options fuel file m event).2.bare =
        (runEvent options fuel file' m' event').2.bare := by
  cases event with
  | form f =>
      cases event' with
      | form f' => exact runForm_congr options fuel file file' hm (by simpa [Parser.Event.bare] using he)
      | _ => simp [Parser.Event.bare] at he
  | error e =>
      cases event' with
      | error e' =>
          simp only [Parser.Event.bare, Parser.Event.error.injEq] at he
          exact ⟨by simp [runEvent, bareOutcome, Failure.bare, he], hm⟩
      | _ => simp [Parser.Event.bare] at he
  | fault message =>
      cases event' with
      | fault message' =>
          simp only [Parser.Event.bare, Parser.Event.fault.injEq] at he
          exact ⟨by simp [runEvent, bareOutcome, Failure.bare, he], hm⟩
      | _ => simp [Parser.Event.bare] at he

theorem runEvents_congr (file file' : FileRef) {m m' : Machine} {events events' : List Parser.Event}
    (hm : m.bare = m'.bare) (he : events.map Parser.Event.bare = events'.map Parser.Event.bare) :
    (runEvents options fuel file m events).1.map bareOutcome =
        (runEvents options fuel file' m' events').1.map bareOutcome ∧
      (runEvents options fuel file m events).2.bare =
        (runEvents options fuel file' m' events').2.bare := by
  induction events generalizing m m' events' with
  | nil =>
      obtain rfl : events' = [] := by simpa using he.symm
      exact ⟨rfl, hm⟩
  | cons event events ih =>
      cases events' with
      | nil => simp at he
      | cons event' events' =>
          simp only [List.map_cons, List.cons.injEq] at he
          obtain ⟨ho, hs⟩ := runEvent_congr options fuel file file' hm he.1
          obtain ⟨hos, hms⟩ := ih hs he.2
          exact ⟨by simp [runEvents, ho, hos], hms⟩

theorem runEvents_append (file : FileRef) (m : Machine) (events events' : List Parser.Event) :
    runEvents options fuel file m (events ++ events') =
      ((runEvents options fuel file m events).1 ++
          (runEvents options fuel file (runEvents options fuel file m events).2 events').1,
        (runEvents options fuel file (runEvents options fuel file m events).2 events').2) := by
  induction events generalizing m with
  | nil => rfl
  | cons event events ih => simp [runEvents, ih]

theorem runText_append_newline (it : Interpreter) {t : List Char} (ht : needsMore t = false)
    (s : List Char) :
    (it.runText fuel (t ++ '\n' :: s)).1.map bareOutcome =
        ((it.runText fuel t).1 ++ ((it.runText fuel t).2.runText fuel s).1).map bareOutcome ∧
      (it.runText fuel (t ++ '\n' :: s)).2.machine.bare =
        ((it.runText fuel t).2.runText fuel s).2.machine.bare := by
  have hparse : (parse (t ++ '\n' :: s)).map Parser.Event.bare =
      (parse t ++ parse s).map Parser.Event.bare := by
    rw [Parser.parse_append_newline ht, List.map_append]
  simp only [runText_eq]
  obtain ⟨ho, hm⟩ := runEvents_congr it.options fuel ⟨it.opened, inputName⟩ ⟨it.opened, inputName⟩
    (Eq.refl it.machine.bare) hparse
  rw [runEvents_append] at ho hm
  -- The second text is a file of its own, which shows in places only.
  obtain ⟨ho', hm'⟩ := runEvents_congr it.options fuel ⟨it.opened, inputName⟩
    ⟨it.opened + 1, inputName⟩
    (Eq.refl (runEvents it.options fuel ⟨it.opened, inputName⟩ it.machine (parse t)).2.bare)
    (Eq.refl ((parse s).map Parser.Event.bare))
  refine ⟨?_, hm.trans hm'⟩
  rw [ho, List.map_append, List.map_append, ho']

/-- Running a text and then another agrees with running both at once, with a newline between them,
if the first one needs no more. -/
theorem chunks_agree_with_batch (it : Interpreter) (t s : List UInt8)
    (ht : needsMore (Text.decode t) = false) :
    let first := it.runText fuel (Text.decode t)
    let second := first.2.runText fuel (Text.decode s)
    let batch := it.runText fuel (Text.decode (t ++ 10 :: s))
    (results batch.1).map Expr.bare = (results first.1 ++ results second.1).map Expr.bare ∧
      (failures batch.1).map Failure.bare =
        (failures first.1 ++ failures second.1).map Failure.bare ∧
      batch.2.machine.bare = second.2.machine.bare := by
  intro first second batch
  obtain ⟨ho, hm⟩ := runText_append_newline fuel it ht (Text.decode s)
  rw [← Text.decode_append_newline] at ho hm
  refine ⟨?_, ?_, hm⟩
  · rw [results_bare, ho, ← results_bare]
    simp only [results, List.filterMap_append]
    rfl
  · rw [failures_bare, ho, ← failures_bare]
    simp only [failures, List.filterMap_append]
    rfl

theorem chunks_agree_with_batch_at_stray_bracket :
    let it := Interpreter.new .default true
    -- The texts `(+ 1 2) )` and `x`.
    let t : List UInt8 := [40, 43, 32, 49, 32, 50, 41, 32, 41]
    let s : List UInt8 := [120]
    let first := it.runText 4 (Text.decode t)
    let second := first.2.runText 4 (Text.decode s)
    let batch := it.runText 4 (Text.decode (t ++ 10 :: s))
    needsMore (Text.decode t) = false ∧
      (results batch.1).map Expr.bare = (results first.1 ++ results second.1).map Expr.bare ∧
      (failures batch.1).map Failure.bare =
        (failures first.1 ++ failures second.1).map Failure.bare ∧
      batch.2.machine.bare = second.2.machine.bare := by
  have ht : needsMore (Text.decode [40, 43, 32, 49, 32, 50, 41, 32, 41]) = false := by
    decide +kernel
  exact ⟨ht, chunks_agree_with_batch 4 (.new .default true) _ [120] ht⟩

end Interpreter

end SmallLisp
