import Numbering.CommandLine.Parser

/-! The program: the arguments of a command line in, an exit status and two texts out. A dry run prints
the final text, a list of markers follows if it is asked for, and every complaint goes to the second
text. -/

namespace Numbering

structure Output where
  exit : Nat
  stdout : Text := []
  stderr : Text := []
  deriving DecidableEq, Repr

/-- One line for each marker: its line number and its argument. -/
def Label.listing (P : Label) (t : Text) : Text :=
  (P.sites t).flatMap fun s => Nat.toDigits 10 s.line ++ ':' :: (s.argument ++ ['\n'])

variable {m : Type → Type} [Monad m] [Journal m] [FileSystem m]

namespace Config

/-- The markers of the final text, if they are asked for. -/
def listing (c : Config) (t : Text) : Except Failure Text :=
  if c.list then c.checkLabel.map fun P => P.listing t else .ok []

/-- Runs the job and prints what was asked for. -/
def execute (c : Config) : ExceptT Failure m Output := do
  let report ← c.run
  let preview := if c.dryRun then report.text else []
  let listing ← c.listing report.text
  let summary := if c.verbose then s!"{report.summary} in {String.ofList c.path.lossy}\n" else ""
  return { exit := 0, stdout := preview ++ listing, stderr := summary.toList }

end Config

def Failure.output (f : Failure) : Output := { exit := 1, stderr := s!"statnum: {f.message}\n".toList }

def Stop.output (s : Stop) : Output :=
  let message := s!"{s.printed}\n".toList
  if s.wanted then { exit := 0, stdout := message } else { exit := 2, stderr := message }

/-- The program on the arguments that follow its name. -/
def program (args : List Bytes) : m Output :=
  match Config.ofArgs args with
  | .error stop => return stop.output
  | .ok config => do
    match ← config.execute.run with
    | .ok output => return output
    | .error failure => return failure.output

theorem run_program (w : Workspace) (args : List Bytes) :
    (program args : StateM Workspace Output).run w =
      match Config.ofArgs args with
      | .error stop => (stop.output, w)
      | .ok c =>
        match w.exec c.execute with
        | (.ok output, v) => (output, v)
        | (.error failure, v) => (failure.output, v) := by
  unfold program
  cases Config.ofArgs args with
  | error stop => rfl
  | ok c =>
    simp only [StateT.run_bind, Workspace.exec]
    rcases (c.execute : ExceptT Failure (StateM Workspace) Output).run.run w with ⟨_ | _, _⟩ <;> rfl

end Numbering
