import SmallLisp.Proofs.Intern.Bindings

namespace SmallLisp

namespace Interpreter

theorem exists_assigned_runEvent (options : Options) (fuel : Nat) (file : FileRef) (m : Machine)
    (event : Parser.Event) :
    ∃ defs, (runEvent options fuel file m event).2.env = m.env.assignAll defs := by
  cases event with
  | error e => exact ⟨[], rfl⟩
  | fault message => exact ⟨[], rfl⟩
  | form f =>
      simp only [runEvent]
      cases f.read (some file) with
      | error e => exact ⟨[], rfl⟩
      | ok e =>
          obtain ⟨defs, hdefs⟩ := Eval.exists_assigned options fuel e m
          refine ⟨defs, ?_⟩
          simp only [EvalM.after] at hdefs
          cases hrun : Eval.eval options fuel e m <;> simpa only [hrun] using hdefs

theorem exists_assigned_runWithin (options : Options) (fuel : Nat) (file : FileRef) (steps : Nat)
    (p : Parser) (m : Machine) :
    ∃ defs, (runWithin options fuel file steps p m).2.env = m.env.assignAll defs := by
  induction steps generalizing p m with
  | zero => exact ⟨[], rfl⟩
  | succ steps ih =>
      simp only [runWithin]
      cases p.next with
      | mk event? p' =>
          cases event? with
          | none => exact ⟨[], rfl⟩
          | some event =>
              obtain ⟨defs, hdefs⟩ := exists_assigned_runEvent options fuel file m event
              obtain ⟨defs', hdefs'⟩ := ih p' (runEvent options fuel file m event).2
              exact ⟨defs ++ defs', by rw [Env.assignAll_append, ← hdefs, ← hdefs']⟩

theorem exists_assigned_start (named : Bool) : ∃ defs, (start named).env = Env.empty.assignAll defs := by
  cases named with
  | false => exact ⟨[], rfl⟩
  | true => exact ⟨_, rfl⟩

end Interpreter

namespace Session

theorem exists_assigned_handle (session : Session) (fuel : Nat) (input : List Char) :
    ∃ defs, (session.handle fuel input).2.interpreter.machine.env =
        session.interpreter.machine.env.assignAll defs ∨
      (session.handle fuel input).2.interpreter.machine.env = Env.empty.assignAll defs := by
  unfold handle
  split
  · exact ⟨[], .inl rfl⟩
  · exact ⟨[], .inl rfl⟩
  · exact (Interpreter.exists_assigned_start _).imp fun _ => .inr
  · exact ⟨[], .inl rfl⟩
  · let it := session.interpreter
    obtain ⟨defs, hdefs⟩ := Interpreter.exists_assigned_runWithin it.options fuel
      ⟨it.opened, inputName⟩ (input.length + 2) (.ofText input) it.machine
    exact ⟨defs, .inl hdefs⟩

end Session

namespace InternedStack

variable {M : IdMap} {κ : Type} [DecidableEq κ]

/-- An environment that is reached by entering, leaving and assigning is listed completely, in the order of
the bytes; and as long as there are fewer texts than numbers, the stack that holds it, under ids, shows
the same and never fails. Every evaluation, and every input of a session, leads to such an environment
again, held by a stack with the same table; so at any time that is the answer to `:stack`. -/
theorem listing_is_complete_and_safe [Nonempty κ] {s : InternedStack M κ} {env : Env}
    (h : s.Holds env) :
    env.Listed ∧ (s.symbols.interned.length < UInt32.size → s.Shows env) ∧
      (∀ (m : Machine) (opts : Options) (fuel : Nat) (e : Expr), m.env = env →
        ∃ s' : InternedStack M κ, Interning.Steps s.symbols s'.symbols ∧
          s'.Holds ((Eval.eval opts fuel e).after m).env) ∧
      ∀ (session : Session) (fuel : Nat), session.interpreter.machine.env = env →
        session.handle fuel ":stack".toList = (⟨true, [], Session.stackListing env, []⟩, session) ∧
          ∀ input, ∃ s' : InternedStack M κ, Interning.Steps s.symbols s'.symbols ∧
            s'.Holds (session.handle fuel input).2.interpreter.machine.env := by
  refine ⟨env.listed, fun hsize => h.shows ?_, ?_, ?_⟩
  · rwa [h.sound.size_eq]
  · rintro m opts fuel e rfl
    obtain ⟨defs, hdefs⟩ := Eval.exists_assigned opts fuel e m
    rw [hdefs]
    exact h.assignAll defs
  · rintro session fuel rfl
    refine ⟨rfl, fun input => ?_⟩
    obtain ⟨defs, hdefs | hdefs⟩ := session.exists_assigned_handle fuel input
    · rw [hdefs]
      exact h.assignAll defs
    · rw [hdefs]
      exact h.fresh.assignAll defs

theorem listing_is_complete_and_safe_of_late_name :
    -- "b" is interned before "a", and assigned under a checkpoint.
    ∃ (s : InternedStack .entries Unit) (env : Env), s.Holds env ∧
      s.symbols.interned.length < UInt32.size ∧
      s.names? = some ["a", "b"] ∧ s.find "c" = none ∧
      s.listing? = some "depth 1\na = 1\nb = 2\n" := by
  have hsteps : Interning.Steps (.start 7) _ :=
    (@Interning.steps_intern _ _ _ () rfl "b").trans (@Interning.steps_intern _ _ _ () rfl "a")
  have h := Holds.start (M := .entries) hsteps
  have ha := h.assigned (.int 1 []) (show (⟨(), "a", ⟨7, 1⟩⟩ : InternCall Unit) ∈ _ from .head _)
  have hb := ha.entered.assigned (.int 2 [])
    (show (⟨(), "b", ⟨7, 0⟩⟩ : InternCall Unit) ∈ _ from .tail _ (.head _))
  obtain ⟨-, hshows, -⟩ := listing_is_complete_and_safe hb
  have hnames : Bindings.names [("a", .int 1 []), ("b", .int 2 [])] = ["a", "b"] := by
    simp [Bindings.names, List.eraseDups_cons, List.mergeSort]
  have hshows := hshows (by decide)
  refine ⟨_, _, hb, by decide, hshows.names.trans ?_, (hshows.find "c").trans rfl,
    hshows.listing.trans ?_⟩
  · exact congrArg some hnames
  · have hlisting : Session.stackListing
      ⟨[("a", .int 1 []), ("b", .int 2 [])], [[("a", .int 1 [])]]⟩ = "depth 1\na = 1\nb = 2\n" := by
      simp only [Session.stackListing, Env.names, hnames]
      rfl
    exact congrArg some hlisting

end InternedStack

end SmallLisp
