import SmallLisp.Cli.Directory
import SmallLisp.Cli.Flags
import SmallLisp.Form.Dump
import SmallLisp.Session
import SmallLisp.Settings

/-!
The commands of the program. How files are looked up is left to the caller, so that a command runs
on a disk and on a directory in memory alike.
-/
namespace SmallLisp.Cli

inductive Command where
  | run | read | repl
deriving DecidableEq, Repr

namespace Command

def ofName? : String → Option Command
  | "run" => some .run
  | "read" => some .read
  | "repl" => some .repl
  | _ => none

def flags : Command → List FlagSpec
  | .run => ⟨"quiet", .switch, some 'q'⟩ :: commonFlags
  | .read => ⟨"dump", .switch, none⟩ :: commonFlags
  | .repl => commonFlags

def needsFiles : Command → Bool
  | .repl => false
  | _ => true

end Command

def rootFlags : List FlagSpec := ⟨"version", .switch, none⟩ :: commonFlags

structure Invocation where
  command : Command
  flags : Flags
  files : List String

def Invocation.ofArgs? (args : List String) : Option Invocation := do
  let word ← firstWord? rootFlags args
  let command ← Command.ofName? word
  let (flags, files) ← parseFlags? command.flags (withoutWord rootFlags word args)
  if command.needsFiles && files.isEmpty then none else some ⟨command, flags, files⟩

structure Output where
  exitCode : Nat
  stdout : String
deriving DecidableEq, Repr

def settingsName : String := ".lisp.yaml"

def fallbackWidth : Nat := 80

def override (flags : Flags) (s : Settings) : Settings :=
  { s with
    closures := (flags.switch? "closures").getD s.closures
    maxDepth := (flags.number? "max-depth").getD s.maxDepth
    width := (flags.number? "width").getD s.width
    verbose := (flags.switch? "verbose").getD s.verbose
    bare := (flags.switch? "no-prelude").getD false }

def printerFor (s : Settings) : Printer :=
  .new (if s.width = 0 then fallbackWidth else s.width)

section

variable {m : Type → Type} [Monad m]

abbrev CliM (m : Type → Type) := ExceptT Output m

def loadSettings (lookup : String → m Lookup) (flags : Flags) : CliM m Settings := do
  let named := flags.text? "config"
  let name := named.getD settingsName
  match ← lookup name with
  | .contents text =>
      match Settings.default.parse text with
      | .ok s => pure (override flags s)
      | .error e => throw ⟨2, s!"malformed config file {Text.quoted name}: {e}\n"⟩
  | found =>
      match found, named with
      | .absent, none => pure (override flags .default)
      | _, _ =>
          throw ⟨2, s!"failed to read config file {Text.quoted name}: {found.complaint name}\n"⟩

def readFiles (lookup : String → m Lookup) : List String → CliM m (List (String × List Char))
  | [] => pure []
  | name :: names => do
      match ← lookup name with
      | .contents text =>
          let rest ← readFiles lookup names
          pure ((name, text) :: rest)
      | found =>
          throw ⟨2, s!"failed to read source file {Text.quoted name}: {found.complaint name}\n"⟩

end

structure Report where
  values : String
  failures : List String

namespace Report

def ok (r : Report) : Bool := r.failures.isEmpty

def text (r : Report) : String := r.values ++ String.join r.failures

end Report

def Output.ofReports (reports : List Report) : Output :=
  ⟨if reports.all (·.ok) then 0 else 1, String.join (reports.map (·.text))⟩

def runFiles (print : Expr → String) :
    Interpreter → List (String × List Char) → List Report × Interpreter
  | it, [] => ([], it)
  | it, (name, text) :: files =>
      let (file, it) := it.openFile name text
      let (outcomes, it) := it.runFile Interpreter.ample file
      let values := String.join ((Interpreter.results outcomes).map print)
      let failures := (Interpreter.failures outcomes).map (·.report file)
      let (rest, it) := runFiles print it files
      (⟨values, failures⟩ :: rest, it)

/-- Reads a file without evaluating it. A full listing stops before expressions are made. -/
def readFile (dump : Bool) (printer : Printer) (name : String) (text : List Char) : Report :=
  let file : File := ⟨⟨0, name⟩, text⟩
  let forms := parseForms text
  let parseFailures := (parseErrors text).map (Failure.parse · |>.report file)
  if dump then ⟨String.join (forms.map (·.dump)), parseFailures⟩
  else
    ⟨String.join ((Form.readAll none forms).map printer.format),
      parseFailures ++ (Form.readErrors none forms).map (Failure.read · |>.report file)⟩

section

variable {m : Type → Type} [Monad m]

/-- An interpreter that has run the files named in the settings; none of them may fail. -/
def startInterpreter (lookup : String → m Lookup) (s : Settings) : CliM m Interpreter := do
  let files ← readFiles lookup s.preludeFiles
  let it := Interpreter.new ⟨s.closures, s.maxDepth⟩ (!s.bare)
  let (reports, it) := runFiles (fun _ => "") it files
  match reports.find? (!·.ok) with
  | some r => throw ⟨2, r.text⟩
  | none => pure it

def perform (lookup : String → m Lookup) (stdin : m (List Char)) (i : Invocation) :
    CliM m Output := do
  let s ← loadSettings lookup i.flags
  let printer := printerFor s
  match i.command with
  | .run =>
      let it ← startInterpreter lookup s
      let files ← readFiles lookup i.files
      let quiet := (i.flags.switch? "quiet").getD false
      let (reports, _) := runFiles (fun e => if quiet then "" else printer.format e) it files
      pure (.ofReports reports)
  | .read =>
      let files ← readFiles lookup i.files
      let dump := (i.flags.switch? "dump").getD false
      pure (.ofReports (files.map fun (name, text) => readFile dump printer name text))
  | .repl =>
      let it ← startInterpreter lookup s
      let (reply, _) := Session.handle ⟨it, printer⟩ Interpreter.ample (← stdin)
      pure (.ofReports [⟨reply.out, reply.reports⟩])

def execute (lookup : String → m Lookup) (stdin : m (List Char)) (args : List String) :
    m Output := do
  match Invocation.ofArgs? args with
  | none => pure ⟨1, ""⟩
  | some i =>
      match ← (perform lookup stdin i).run with
      | .ok output => pure output
      | .error output => pure output

end

end SmallLisp.Cli
